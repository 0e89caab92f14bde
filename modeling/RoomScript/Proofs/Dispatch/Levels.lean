import RoomScript.Proofs.Dispatch.Invariant
import RoomScript.Proofs.Level

/-!
# Invariants of call levels

Every call level in use stands at a position: the innermost at the position of the thread, any other
where the level above it returns to. A property of a call level and its position that the moves of a
single level keep is kept by a thread for all its levels in use, since a subroutine call adds a fresh
level without touching the others and a return takes one away.
-/
namespace RoomScript

/-- A property of a call level and the position at which it stands that a program cannot break. -/
structure CallLevel.Invariant (p : Program) (J : Nat → CallLevel → Prop) : Prop where
  start : ∀ {event : UInt8} {entry : Nat} (address : Nat), p.entry? event = some entry →
    J entry { returnAddress := address }
  move : ∀ {position target : Nat} {l l' : CallLevel},
    J position l → l.Moves p position target l' → J target l'
  rest : ∀ {position : Nat} {l l' : CallLevel} {result : Except Fault Outcome},
    J position l → l.Rests p position result l' → J position l'
  resync : ∀ {position : Nat} {l : CallLevel}, J position l → J position l.resyncJumpTop

namespace CallLevel

variable {p : Program} {l l' : CallLevel} {position target : Nat}

/-- No move of a level changes where it returns to. -/
theorem Moves.returnAddress_eq (h : l.Moves p position target l') :
    l'.returnAddress = l.returnAddress := by
  cases h with
  | openIf _ _ ho => exact (opensBlock ho).returnAddress
  | openElse _ _ ho => exact (closesBlock ho).returnAddress
  | closeIf _ _ ho => exact (closesBlock ho).returnAddress
  | sleep _ _ ho => exact (pushesLoop ho).returnAddress
  | openFor _ _ _ ho => exact (pushesLoop ho).returnAddress
  | takeCase _ _ ho _ => exact (pushesLoop ho).returnAddress
  | passSwitch _ _ ho _ => exact (pushesLoop ho).returnAddress
  | unwind _ _ _ ho => exact (closesBlock ho).returnAddress
  | _ => rfl

theorem Rests.returnAddress_eq {result : Except Fault Outcome}
    (h : l.Rests p position result l') : l'.returnAddress = l.returnAddress := by
  cases h with
  | stuck _ _ ho _ => exact (pushesLoop ho).returnAddress
  | _ => rfl

end CallLevel

namespace Thread

/-- The call level with an index. -/
def levelAt (t : Thread) (i : Fin maxCallLevels) : CallLevel := t.levels[i]

/-- Where a call level in use stands. -/
def position (t : Thread) (i : Fin maxCallLevels) : Nat :=
  if h : i.val < t.depth.val then
    (t.levelAt ⟨i.val + 1, Nat.lt_of_le_of_lt h t.depth.isLt⟩).returnAddress
  else
    t.pc

/-- All call levels in use have a property. -/
def Holds (J : Nat → CallLevel → Prop) (t : Thread) : Prop :=
  ∀ i, i ≤ t.depth → J (t.position i) (t.levelAt i)

variable {p : Program} {J : Nat → CallLevel → Prop} {t t' : Thread} {i : Fin maxCallLevels}

theorem levelAt_depth (t : Thread) : t.levelAt t.depth = t.level := rfl

theorem position_depth (t : Thread) : t.position t.depth = t.pc := by
  simp [position]

theorem position_of_lt (h : i < t.depth) :
    t.position i =
      (t.levelAt ⟨i.val + 1, Nat.lt_of_le_of_lt h t.depth.isLt⟩).returnAddress :=
  dif_pos h

theorem Holds.level (h : t.Holds J) : J t.pc t.level := by
  have hd := h t.depth (Fin.le_refl _)
  rwa [position_depth] at hd

theorem levelAt_within_self (t : Thread) (pc : Nat) (level : CallLevel) :
    (t.within pc level).levelAt t.depth = level := t.level_within pc level

theorem levelAt_within_of_ne (h : i ≠ t.depth) (pc : Nat) (level : CallLevel) :
    (t.within pc level).levelAt i = t.levelAt i :=
  Vector.getElem_set_ne t.depth.isLt i.isLt fun e => h (Fin.ext e.symm)

/-- The second thread differs from the first at most in its position and within the level in use. -/
structure Alike (t t' : Thread) : Prop where
  depth : t'.depth = t.depth
  levelAt : ∀ i, i ≠ t.depth → t'.levelAt i = t.levelAt i
  returnAddress : t'.level.returnAddress = t.level.returnAddress

theorem alike_within (t : Thread) (pc : Nat) {level : CallLevel}
    (hr : level.returnAddress = t.level.returnAddress) (work : WorkTarget)
    (status : ThreadStatus) : t.Alike { t.within pc level with work, status } where
  depth := rfl
  levelAt i hi := levelAt_within_of_ne hi pc level
  returnAddress := by
    have hl := t.level_within pc level
    exact (congrArg CallLevel.returnAddress hl).trans hr

theorem Alike.position (h : t.Alike t') (hi : i < t.depth) : t'.position i = t.position i := by
  rw [position_of_lt hi, position_of_lt (h.depth.symm ▸ hi)]
  by_cases hn : (⟨i.val + 1, Nat.lt_of_le_of_lt hi t.depth.isLt⟩ : Fin maxCallLevels) = t.depth
  · rw [hn, levelAt_depth, ← h.returnAddress, ← levelAt_depth t', h.depth]
  · rw [h.levelAt _ hn]

/-- Only the level in use has to keep the property while a thread moves within it. -/
theorem Holds.alike (h : t.Holds J) (ha : t.Alike t') (hj : J t'.pc t'.level) : t'.Holds J := by
  intro i hi
  rw [ha.depth] at hi
  rcases Fin.lt_or_eq_of_le hi with hlt | rfl
  · rw [ha.position hlt, ha.levelAt _ (Fin.ne_of_lt hlt)]
    exact h i hi
  · rw [← ha.depth, position_depth, levelAt_depth]
    exact hj

/-- What a subroutine call leaves: one more level, which returns to the position of the caller. -/
structure Calls (t t' : Thread) (entry : Nat) (event : UInt8) : Prop where
  status : t'.status = t.status
  work : t'.work = t.work
  callTrace : t'.callTrace = t.callTrace ++ [event]
  depth : t'.depth.val = t.depth.val + 1
  levelAt : ∀ i, i ≤ t.depth → t'.levelAt i = t.levelAt i
  level : t'.level = { returnAddress := t.pc }
  pc : t'.pc = entry

theorem calls_of_call? {entry : Nat} {event : UInt8} (h : t.call? entry event = some t') :
    t.Calls t' entry event := by
  unfold call? at h
  split at h
  · rename_i hd
    cases h
    exact {
      status := rfl
      work := rfl
      callTrace := rfl
      depth := rfl
      levelAt := fun i hi => Vector.getElem_set_ne hd i.isLt (by
        have : i.val ≤ t.depth.val := hi
        omega)
      level := Vector.getElem_set_self _
      pc := rfl }
  · cases h

theorem Calls.position {entry : Nat} {event : UInt8} (h : t.Calls t' entry event) (hi : i ≤ t.depth) :
    t'.position i = t.position i := by
  have hd := h.depth
  have hle : i.val ≤ t.depth.val := hi
  rw [position_of_lt (show i.val < t'.depth.val by omega)]
  rcases Fin.lt_or_eq_of_le hi with hlt | rfl
  · rw [position_of_lt hlt, h.levelAt _ (show i.val + 1 ≤ t.depth.val from hlt)]
  · have hn : (⟨t.depth.val + 1, Nat.lt_of_le_of_lt (by omega) t'.depth.isLt⟩ :
        Fin maxCallLevels) = t'.depth := Fin.ext hd.symm
    rw [hn, levelAt_depth, h.level, position_depth]

theorem Holds.calls {entry : Nat} {event : UInt8} (h : t.Holds J) (hc : t.Calls t' entry event)
    (hj : J entry { returnAddress := t.pc }) : t'.Holds J := by
  intro i hi
  have hd := hc.depth
  by_cases hle : i ≤ t.depth
  · rw [hc.position hle, hc.levelAt i hle]
    exact h i hle
  · have hi' : i = t'.depth := by
      have h1 : i.val ≤ t'.depth.val := hi
      have h2 : ¬i.val ≤ t.depth.val := hle
      exact Fin.ext (by omega)
    rw [hi', position_depth, levelAt_depth, hc.level, hc.pc]
    exact hj

/-- What a return leaves: one level less, at the position to which that level returned. -/
structure Returns (t t' : Thread) : Prop where
  status : t'.status = t.status
  work : t'.work = t.work
  callTrace : t'.callTrace = t.callTrace.dropLast
  depth : t.depth.val = t'.depth.val + 1
  levelAt : ∀ i, i < t'.depth → t'.levelAt i = t.levelAt i
  level : t'.level = (t.levelAt t'.depth).resyncJumpTop
  pc : t'.pc = t.level.returnAddress

theorem returns_of_return? (h : t.return? = some t') : t.Returns t' := by
  unfold return? at h
  split at h
  · cases h
  · rename_i hd
    cases h
    have hlt := t.depth.isLt
    exact {
      status := rfl
      work := rfl
      callTrace := rfl
      depth := by
        show t.depth.val = t.depth.val - 1 + 1
        omega
      levelAt := fun i hi => by
        have hi' : i.val < t.depth.val - 1 := hi
        simp only [levelAt, Fin.getElem_fin]
        rw [Vector.getElem_set_ne _ _ (by omega), Vector.getElem_set_ne _ _ (by omega)]
      level := by
        simp only [Thread.level, levelAt, Fin.getElem_fin]
        rw [Vector.getElem_set_self, Vector.getElem_set_ne _ _ (by omega)]
      pc := rfl }

theorem Returns.position (h : t.Returns t') (hi : i ≤ t'.depth) :
    t'.position i = t.position i := by
  have hd := h.depth
  have hle : i.val ≤ t'.depth.val := hi
  rw [position_of_lt (show i.val < t.depth.val by omega)]
  rcases Fin.lt_or_eq_of_le hi with hlt | rfl
  · have hs : i.val + 1 ≤ t'.depth.val := hlt
    rw [position_of_lt hlt]
    rcases Nat.lt_or_eq_of_le hs with hs | hs
    · rw [h.levelAt _ (show i.val + 1 < t'.depth.val from hs)]
    · have hn : (⟨i.val + 1, Nat.lt_of_le_of_lt hlt t'.depth.isLt⟩ : Fin maxCallLevels) =
          t'.depth := Fin.ext hs
      rw [hn, levelAt_depth, h.level]
      rfl
  · have hn : (⟨t'.depth.val + 1, Nat.lt_of_le_of_lt (by omega) t.depth.isLt⟩ :
        Fin maxCallLevels) = t.depth := Fin.ext hd.symm
    rw [position_depth, h.pc, hn, levelAt_depth]

theorem Holds.returns (h : t.Holds J) (hr : t.Returns t')
    (hs : ∀ {position : Nat} {l : CallLevel}, J position l → J position l.resyncJumpTop) :
    t'.Holds J := by
  intro i hi
  have hd := hr.depth
  have hle : i ≤ t.depth := by
    have : i.val ≤ t'.depth.val := hi
    exact (show i.val ≤ t.depth.val by omega)
  rw [hr.position hi]
  rcases Fin.lt_or_eq_of_le hi with hlt | rfl
  · rw [hr.levelAt i hlt]
    exact h i hle
  · rw [levelAt_depth, hr.level]
    exact hs (h _ hle)

theorem Holds.moves (hJ : CallLevel.Invariant p J) (h : t.Holds J) (hm : t.Moves p t') :
    t'.Holds J := by
  cases hm with
  | @within pc level work hl =>
      apply h.alike (t.alike_within pc hl.returnAddress_eq work t.status)
      have hk := t.level_within pc level
      exact hk.symm ▸ hJ.move h.level hl
  | @call i event entry _ hi hc he ht =>
      -- For the level that calls, the call only moves the position behind the instruction.
      have hp : t.level.Moves p t.pc (t.pc + i.width) t.level :=
        .pass hi (by rw [hc]; trivial)
      have ha := t.alike_within (t.pc + i.width) rfl t.work t.status
      have hw := h.alike ha (by
        have hk := t.level_within (t.pc + i.width) t.level
        exact hk.symm ▸ hJ.move h.level hp)
      exact hw.calls (calls_of_call? ht) (hJ.start _ he)
  | leave _ _ ht => exact h.returns (returns_of_return? ht) hJ.resync

theorem Holds.stops (hJ : CallLevel.Invariant p J) {result : Except Fault Outcome}
    (h : t.Holds J) (hs : t.Stops p result t') : t' = dead ∨ t'.Holds J := by
  cases hs with
  | @park outcome level hl =>
      refine .inr (h.alike (t.alike_within t.pc hl.returnAddress_eq t.work .suspended) ?_)
      have hk := t.level_within t.pc level
      exact hk.symm ▸ hJ.rest h.level hl
  | @fail fault level hl =>
      refine .inr (h.alike (t.alike_within t.pc hl.returnAddress_eq t.work t.status) ?_)
      have hk := t.level_within t.pc level
      exact hk.symm ▸ hJ.rest h.level hl
  | finish => exact .inl rfl

/-- An invariant of call levels makes an invariant of live threads. -/
theorem invariant_of_levels (hJ : CallLevel.Invariant p J) :
    Invariant p fun t => t.isAlive → t.Holds J where
  start he _ := by
    intro i hi
    have hi' : i = 0 := Fin.le_zero_iff.mp hi
    subst hi'
    exact hJ.start 0 he
  resume ha h _ := h ha
  move ha h hm _ := (h ha).moves hJ hm
  stop ha h hs ha' := by
    rcases (h ha).stops hJ hs with rfl | h'
    · cases ha'
    · exact h'

end Thread

/-- A thread that a session reaches fails at an instruction whose level has the property. -/
theorem Interpreter.Reachable.exists_fault {programs : Program → Prop}
    {J : Nat → CallLevel → Prop} {it : Interpreter} {p : Program} {slot : Slot} {fault : Fault}
    (hJ : ∀ p, programs p → CallLevel.Invariant p J) (h : it.Reachable programs) (hp : programs p)
    (hf : (it.runSlot p slot).result = .error fault) :
    ∃ position l l', J position l ∧ l.Rests p position (.error fault) l' := by
  have hT := Thread.invariant_of_levels (hJ p hp)
  have hdead : Thread.dead.isAlive → Thread.dead.Holds J := fun hd => by cases hd
  by_cases ha : (it.threads.thread slot).isAlive
  · have hall := h.all (fun p hp => Thread.invariant_of_levels (hJ p hp)) hdead
    have hkeeps := machine_keeps hT hall ha
    rw [runSlot_of_alive ha, result_reportOf] at hf
    obtain ⟨last, m', hlast, hs⟩ := hkeeps.exists_fault hT hdead hf
    have hstop := Machine.stops_of_stopped hs
    generalize hr : (Except.error fault : Except Fault Outcome) = result, m'.thread = t' at hstop
    cases hstop with
    | park _ => cases hr
    | fail hrest =>
        cases hr
        exact ⟨_, _, _, (hlast.thread hlast.alive).level, hrest⟩
    | finish => cases hr
  · rw [runSlot_of_dead ha] at hf
    cases hf

end RoomScript
