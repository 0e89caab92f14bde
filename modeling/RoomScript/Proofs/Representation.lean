import Mathlib.Data.List.Basic
import RoomScript.Proofs.Session.Phase

/-!
# The threads of a pool stay well formed

The counts of a call level are kept twice, as the number of open blocks and as the top of the jump stack,
and leaving a loop early sets the first from a number that the loop has kept. Here they are shown to agree
on every call level of every thread, open or not, at every instruction of every session, whatever programs
it runs and whichever requests fail. So a dead slot holds nothing of the thread that was there, a failed
condition always finds its block, returning from a subroutine only takes the level of the subroutine away,
and no look into the stacks of a level misses them.
-/
namespace RoomScript

variable {p : Program}

/-- The counts of a call level agree and lie inside its stacks, and no loop slot, open or not, keeps a
number of blocks for which there is no room. -/
structure CallLevel.WellFormed (l : CallLevel) : Prop where
  openBlocks : l.openBlocks ≤ jumpStackDepth
  jumpTop : l.jumpTop = l.openBlocks
  openLoops : l.openLoops ≤ loopSlots
  savedBlocks : ∀ i, (l.loop i).savedBlocks ≤ jumpStackDepth

/-- What the operations of a call level look up or write in its stacks is there: no look-up gives the
default for an entry that does not exist, and no write is lost. -/
structure CallLevel.InRange (l : CallLevel) : Prop where
  openBlock : ∀ target l', l.openBlock? target = some l' → l'.jumpStack[l.jumpTop]? = some target
  closeBlock : ∀ target l', l.closeBlock? = some (target, l') →
    l.jumpStack[l.jumpTop - 1]? = some target
  pushLoop : ∀ slot l', l.pushLoop? slot = some l' → l'.loops[l.openLoops]? = some slot
  currentLoop : 0 < l.openLoops →
    ∃ slot, l.currentLoop? = some slot ∧ l.loops[l.openLoops - 1]? = some slot
  setLoop : 0 < l.openLoops → ∀ slot, (l.setLoop slot).loops[l.openLoops - 1]? = some slot
  dropExitedLoops : ∀ n, n < l.openLoops → l.loops[n]? = some (l.loop n)

namespace CallLevel.WellFormed

variable {l l' : CallLevel} {target : Nat} {slot : LoopSlot}

theorem fresh (address : Nat) : WellFormed { returnAddress := address } where
  openBlocks := Nat.zero_le _
  jumpTop := rfl
  openLoops := Nat.zero_le _
  savedBlocks i := by
    simp only [loop, Vector.getElem?_replicate]
    split <;> decide

theorem opens (h : l.WellFormed) (ho : l.OpensBlock target l') : l'.WellFormed where
  openBlocks := by
    have hroom := ho.room
    rw [h.jumpTop] at hroom
    rw [ho.openBlocks]
    exact hroom
  jumpTop := by rw [ho.jumpTop, ho.openBlocks, h.jumpTop]
  openLoops := ho.openLoops ▸ h.openLoops
  savedBlocks i := ho.loop i ▸ h.savedBlocks i

theorem closes (h : l.WellFormed) (hc : l.ClosesBlock target l') : l'.WellFormed where
  openBlocks := by
    have hb := h.openBlocks
    rw [hc.openBlocks]
    omega
  jumpTop := by rw [hc.jumpTop, hc.openBlocks, h.jumpTop]
  openLoops := hc.openLoops ▸ h.openLoops
  savedBlocks i := hc.loop i ▸ h.savedBlocks i

theorem pushes (h : l.WellFormed) (hp : l.PushesLoop slot l')
    (hs : slot.savedBlocks = l.openBlocks) : l'.WellFormed where
  openBlocks := hp.openBlocks ▸ h.openBlocks
  jumpTop := by rw [hp.jumpTop, hp.openBlocks, h.jumpTop]
  openLoops := by
    rw [hp.openLoops]
    exact hp.room
  savedBlocks i := by
    by_cases hi : i = l.openLoops
    · rw [hi, hp.loop_new, hs]
      exact h.openBlocks
    · rw [hp.loop_old i hi]
      exact h.savedBlocks i

theorem pop (h : l.WellFormed) : l.popLoop.WellFormed :=
  { h with openLoops := Nat.le_trans (Nat.sub_le _ _) h.openLoops }

/-- The top of the jump stack already is where it would be put. -/
theorem resync (h : l.WellFormed) : l.resyncJumpTop = l :=
  congrArg (fun n => { l with jumpTop := n }) h.jumpTop.symm

/-- Counting a loop down changes nothing else. -/
theorem count (h : l.WellFormed) (hc : l.currentLoop? = some slot) (counter : UInt16) :
    (l.setLoop { slot with counter }).WellFormed := by
  obtain ⟨hpos, hle, hslot⟩ := currentLoop?_eq_some_iff.mp hc
  refine { h with savedBlocks := fun i => ?_ }
  by_cases hi : i = l.openLoops - 1
  · rw [hi, loop_setLoop_self hpos hle, hslot]
    exact h.savedBlocks _
  · rw [loop_setLoop_of_ne hi]
    exact h.savedBlocks i

theorem breaks (h : l.WellFormed) (hc : l.currentLoop? = some slot) :
    { l with openBlocks := slot.savedBlocks }.resyncJumpTop.popLoop.WellFormed := by
  obtain ⟨_, _, hslot⟩ := currentLoop?_eq_some_iff.mp hc
  have hsaved := h.savedBlocks (l.openLoops - 1)
  rw [← hslot] at hsaved
  exact {
    openBlocks := hsaved
    jumpTop := rfl
    openLoops := Nat.le_trans (Nat.sub_le _ _) h.openLoops
    savedBlocks := h.savedBlocks }

theorem drops (h : l.WellFormed) (hd : l.DropsLoops l') : l'.WellFormed where
  openBlocks := hd.openBlocks ▸ h.openBlocks
  jumpTop := by rw [hd.jumpTop, hd.openBlocks, h.jumpTop]
  openLoops := Nat.le_trans hd.openLoops h.openLoops
  savedBlocks i := hd.loop i ▸ h.savedBlocks i

theorem exists_closeBlock? (h : l.WellFormed) (ho : l.openBlocks ≠ 0) :
    ∃ target l', l.closeBlock? = some (target, l') := by
  have ht := h.jumpTop
  exact CallLevel.exists_closeBlock? (by omega) (by omega)

theorem openBlocks_eq_zero (h : l.WellFormed) (hc : l.closeBlock? = none) : l.openBlocks = 0 := by
  by_contra ho
  obtain ⟨target, l', hsome⟩ := h.exists_closeBlock? ho
  rw [hc] at hsome
  cases hsome

theorem inRange (h : l.WellFormed) : l.InRange where
  openBlock target l' ho := by
    have hb := opensBlock ho
    have hnew := hb.jump_new
    rw [jump, Vector.getElem?_eq_getElem hb.room] at hnew
    rw [Vector.getElem?_eq_getElem hb.room]
    exact congrArg some hnew
  closeBlock target l' hc := by
    have hb := closesBlock hc
    have hpos := hb.openBlocks_pos
    have hle := h.openBlocks
    have hlt : l.jumpTop - 1 < jumpStackDepth := by
      rw [h.jumpTop]
      omega
    rw [hb.target, jump, Vector.getElem?_eq_getElem hlt]
    rfl
  pushLoop slot l' hp := by
    have hb := pushesLoop hp
    have hnew := hb.loop_new
    rw [loop, Vector.getElem?_eq_getElem hb.room] at hnew
    rw [Vector.getElem?_eq_getElem hb.room]
    exact congrArg some hnew
  currentLoop hpos := by
    have hle := h.openLoops
    have hlt : l.openLoops - 1 < loopSlots := by omega
    refine ⟨_, currentLoop?_eq_some_iff.mpr ⟨hpos, hle, rfl⟩, ?_⟩
    rw [loop, Vector.getElem?_eq_getElem hlt]
    rfl
  setLoop hpos slot := by
    have hle := h.openLoops
    have hlt : l.openLoops - 1 < loopSlots := by omega
    exact Vector.getElem?_setIfInBounds_self_of_lt hlt
  dropExitedLoops n hn := by
    have hlt : n < loopSlots := Nat.lt_of_lt_of_le hn h.openLoops
    rw [loop, Vector.getElem?_eq_getElem hlt]
    rfl

end CallLevel.WellFormed

/-- No move of a call level makes it ill formed, whatever the code is and wherever the level stands. -/
theorem CallLevel.wellFormed_invariant (p : Program) : Invariant p fun _ l => l.WellFormed where
  start address _ := .fresh address
  resync h := h.resync.symm ▸ h
  move := by
    intro position target l l' h hm
    cases hm with
    | openIf _ _ ho => exact h.opens (opensBlock ho)
    | openElse _ _ hc => exact h.closes (closesBlock hc)
    | closeIf _ _ hc => exact h.closes (closesBlock hc)
    | sleep _ _ hp => exact h.pushes (pushesLoop hp) rfl
    | wake _ _ _ _ => exact h.pop
    | openFor _ _ _ hp => exact h.pushes (pushesLoop hp) rfl
    | again _ _ hc _ => exact h.count hc _
    | closeFor _ _ hc _ => exact (h.count hc 0).pop
    | closeSwitch _ _ _ => exact h.pop
    | breakOut _ _ hc => exact h.breaks hc
    | takeCase _ _ hp _ => exact h.pushes (pushesLoop hp) rfl
    | passSwitch _ _ hp _ => exact (h.pushes (pushesLoop hp) rfl).pop
    | unwind _ _ _ hc => exact (h.closes (closesBlock hc)).drops (dropsLoops _)
    | _ => exact h
  rest := by
    intro position l l' result h hr
    cases hr with
    | asleep _ _ hc _ => exact h.count hc _
    | stuck _ _ hp _ => exact h.pushes (pushesLoop hp) rfl
    | _ => exact h

/-- A dead thread is the dead thread, a live one has an event for each call level in use, and all its
other levels are as new. The depth is in range by its type. -/
structure Thread.WellFormed (t : Thread) : Prop where
  dead : ¬t.isAlive → t = Thread.dead
  depth : t.depth.val < maxCallLevels
  callTrace : t.isAlive → t.callTrace.length = t.depth.val + 1
  unused : ∀ i, t.depth < i → t.levelAt i = {}
  level : ∀ i, (t.levelAt i).WellFormed

namespace Thread

variable {t t' : Thread} {i : Fin maxCallLevels}

theorem levelAt_of_call? {entry : Nat} {event : UInt8} (h : t.call? entry event = some t')
    (hi : t'.depth < i) : t'.levelAt i = t.levelAt i := by
  unfold call? at h
  split at h
  · rename_i hd
    cases h
    have hlt : t.depth.val + 1 < i.val := hi
    exact Vector.getElem_set_ne hd i.isLt (by omega)
  · cases h

/-- Returning takes a level away and leaves the others as they are. -/
theorem levels_of_return? (h : t.return? = some t') (hw : ∀ i, (t.levelAt i).WellFormed) :
    t'.levels = (t.setLevel {}).levels := by
  unfold return? at h
  split at h
  · cases h
  · cases h
    have hlt := t.depth.isLt
    have hcaller : t.depth.val - 1 < maxCallLevels := by omega
    have hlevel : (t.levels.set t.depth {})[t.depth.val - 1].resyncJumpTop =
        (t.levels.set t.depth {})[t.depth.val - 1] := by
      rw [Vector.getElem_set_ne _ _ (by omega)]
      exact (hw ⟨_, hcaller⟩).resync
    simp only [Fin.getElem_fin, hlevel, Vector.set_getElem_self]
    rfl

theorem levelAt_of_return? (h : t.return? = some t') (hw : ∀ i, (t.levelAt i).WellFormed)
    (hi : i ≠ t.depth) : t'.levelAt i = t.levelAt i := by
  rw [levelAt, levels_of_return? h hw]
  exact levelAt_within_of_ne hi t.pc {}

namespace WellFormed

theorem of_dead : WellFormed Thread.dead where
  dead _ := rfl
  depth := by decide
  callTrace ha := by cases ha
  unused i _ := by simp [levelAt, Thread.dead]
  level i := by
    have hi : Thread.dead.levelAt i = {} := by simp [levelAt, Thread.dead]
    exact hi ▸ .fresh 0

theorem of_start (entry : Nat) (event : UInt8) : WellFormed (start entry event) where
  dead ha := absurd rfl ha
  depth := Fin.isLt 0
  callTrace _ := rfl
  unused i hi := of_dead.unused i hi
  level i := of_dead.level i

/-- A live thread that moves within its level stays well formed if the level does. -/
theorem within (h : t.WellFormed) (ha : t.isAlive) (pc : Nat) {level : CallLevel}
    (hl : level.WellFormed) (work : WorkTarget) {status : ThreadStatus} (hs : status ≠ .dead) :
    WellFormed { t.within pc level with work, status } where
  dead hd := absurd (decide_eq_true hs) hd
  depth := t.depth.isLt
  callTrace _ := h.callTrace ha
  unused i hi := by
    have hlt : t.depth < i := hi
    exact h.unused i hlt ▸ levelAt_within_of_ne (Fin.ne_of_gt hlt) pc level
  level i := by
    by_cases hi : i = t.depth
    · rw [hi]
      exact (levelAt_within_self t pc level).symm ▸ hl
    · exact (levelAt_within_of_ne hi pc level).symm ▸ h.level i

theorem call? (h : t.WellFormed) (ha : t.isAlive) {entry : Nat} {event : UInt8}
    (ht : t.call? entry event = some t') : t'.WellFormed := by
  have hc := calls_of_call? ht
  have hd := hc.depth
  have hunused : ∀ i, t'.depth < i → t'.levelAt i = {} := by
    intro i hi
    have hlt : t.depth.val < i.val := by
      have : t'.depth.val < i.val := hi
      omega
    rw [levelAt_of_call? ht hi, h.unused i hlt]
  refine ⟨fun hdead => ?_, t'.depth.isLt, fun _ => ?_, hunused, fun i => ?_⟩
  · rw [isAlive, hc.status] at hdead
    exact absurd ha hdead
  · rw [hc.callTrace, hd, List.length_append, h.callTrace ha, List.length_singleton]
  · rcases Fin.lt_or_le t.depth i with hlt | hle
    · rcases Fin.lt_or_le t'.depth i with hlt' | hle'
      · exact hunused i hlt' ▸ .fresh 0
      · have hi : i = t'.depth := by
          have : t.depth.val < i.val := hlt
          have : i.val ≤ t'.depth.val := hle'
          exact Fin.ext (by omega)
        rw [hi, levelAt_depth, hc.level]
        exact .fresh _
    · exact hc.levelAt i hle ▸ h.level i

theorem return? (h : t.WellFormed) (ha : t.isAlive) (ht : t.return? = some t') :
    t'.WellFormed := by
  have hr := returns_of_return? ht
  have hd := hr.depth
  have hself : t'.levelAt t.depth = {} := by
    rw [levelAt, levels_of_return? ht h.level]
    exact levelAt_within_self t t.pc {}
  have hother : ∀ i, i ≠ t.depth → t'.levelAt i = t.levelAt i :=
    fun i hi => levelAt_of_return? ht h.level hi
  refine ⟨fun hdead => ?_, t'.depth.isLt, fun _ => ?_, fun i hi => ?_, fun i => ?_⟩
  · rw [isAlive, hr.status] at hdead
    exact absurd ha hdead
  · rw [hr.callTrace, List.length_dropLast, h.callTrace ha, hd]
    rfl
  · by_cases he : i = t.depth
    · exact he ▸ hself
    · have hlt : t.depth.val < i.val := by
        have : t'.depth.val < i.val := hi
        have : i.val ≠ t.depth.val := fun e => he (Fin.ext e)
        omega
      rw [hother i he, h.unused i hlt]
  · by_cases he : i = t.depth
    · rw [he, hself]
      exact .fresh 0
    · exact hother i he ▸ h.level i

end WellFormed

/-- No program makes a thread ill formed. -/
theorem wellFormed_invariant (p : Program) : Invariant p WellFormed where
  start _ := .of_start _ _
  resume := by
    intro t ha h
    have hrunning : ThreadStatus.running ≠ .dead := nofun
    have hw := h.within ha t.pc (h.level t.depth) t.work hrunning
    rwa [levelAt_depth, within_level] at hw
  move := by
    intro t t' ha h hm
    cases hm with
    | @within pc level work hl =>
        exact h.within ha pc ((CallLevel.wellFormed_invariant p).move (h.level t.depth) hl) work
          (of_decide_eq_true ha)
    | @call i event entry t' _ _ _ ht =>
        have hw := h.within ha (t.pc + i.width) (h.level t.depth) t.work (of_decide_eq_true ha)
        exact hw.call? ha ht
    | leave _ _ ht => exact h.return? ha ht
  stop := by
    intro t t' result ha h hs
    cases hs with
    | park hr =>
        exact h.within ha t.pc ((CallLevel.wellFormed_invariant p).rest (h.level t.depth) hr) t.work
          nofun
    | fail hr =>
        exact h.within ha t.pc ((CallLevel.wellFormed_invariant p).rest (h.level t.depth) hr) t.work
          (of_decide_eq_true ha)
    | finish => exact .of_dead

end Thread

/-- A machine whose thread is about to carry out an instruction in a slot. The pool keeps no thread for
that slot meanwhile. -/
structure Machine.WellFormed (slot : Slot) (m : Machine) : Prop where
  alive : m.thread.isAlive
  thread : m.thread.WellFormed
  pool : ∀ i, i ≠ slot → (m.pool.thread i).WellFormed
  /-- Wherever the thread has got to, a failed condition finds the block that it leaves. -/
  unwind : ∀ position pc store m' fault,
    ({ m.goto pc with store } : Machine).unwind position ≠ .stopped m' (.error fault)
  /-- A return only takes a level away: putting right the jump stack of the caller changes nothing. -/
  leave : ∀ pc t', ({ m.thread with pc } : Thread).return? = some t' →
    t'.levels = m.thread.levels.set m.thread.depth {}
  inRange : m.thread.level.InRange

theorem Machine.unwind_ne_error {m m' : Machine} {position : Nat} {fault : Fault}
    (h : m.thread.level.WellFormed) : m.unwind position ≠ .stopped m' (.error fault) := by
  intro hu
  simp only [unwind] at hu
  split at hu
  · cases hu
  · rename_i ho
    split at hu
    · exact ho (h.openBlocks_eq_zero ‹_›)
    · cases hu

theorem Machine.Keeps.wellFormed {m : Machine} (h : m.Keeps Thread.WellFormed) (slot : Slot) :
    m.WellFormed slot where
  alive := h.alive
  thread := h.thread
  pool i _ := h.pool i
  unwind position pc store m' fault := by
    have hl : m.thread.level.WellFormed := h.thread.level m.thread.depth
    exact Machine.unwind_ne_error hl
  leave pc t' ht := Thread.levels_of_return? ht h.thread.level
  inRange := (h.thread.level m.thread.depth).inRange

namespace Interpreter

/-- Whatever programs a session runs, and whichever of its requests fail: all threads of the pool are well
formed whenever the host has its turn, and so is the machine before every single instruction. -/
theorem threads_well_formed (programs : Program → Prop) :
    (∀ it : Interpreter, it.Reachable programs →
      it.threads.toList.length = maxThreads ∧ ∀ slot, (it.threads.thread slot).WellFormed) ∧
    ∀ p slot later m, Phase.Reachable programs (.running p slot later m) → m.WellFormed slot := by
  have hT : ∀ p, programs p → Thread.Invariant p Thread.WellFormed :=
    fun p _ => Thread.wellFormed_invariant p
  constructor
  · intro it h
    exact ⟨Vector.length_toList, h.all hT .of_dead⟩
  · intro p slot later m h
    exact (h.keeps hT .of_dead).wellFormed slot

/-- A subroutine that opens a conditional block and a loop and returns from inside them. -/
def unclosed : Program :=
  .ofFunctions [[Line.gosub 1, .evtEnd].flatMap Line.encode,
    [Line.ifelCk, .forLoop 2, .ret].flatMap Line.encode]

theorem threads_well_formed_unclosed :
    let it := (({} : Interpreter).serve unclosed (.startEvent 0)).interpreter
    (it.threads.thread 0).WellFormed ∧
      ∃ m : Machine, Phase.Reachable (· = unclosed) (.running unclosed 0 [] m) ∧
        m.thread.depth = 1 ∧ m.thread.level.openBlocks = 1 ∧ m.thread.level.openLoops = 1 ∧
        unclosed.instructionAt m.thread.pc = .ok ⟨.ret, [0], rfl⟩ ∧ m.WellFormed 0 := by
  intro it
  have hit : it.Reachable (· = unclosed) := .serve (.startEvent 0) rfl .fresh
  have hturn : Phase.Reachable (· = unclosed) (.running unclosed 0 [] (it.machine 0)) :=
    ((Phase.reachable_idle hit).tail (.runThread it 0 rfl)).tail (.turn rfl)
  have hsteps := Machine.steps_of_exhausted
    (show ((it.machine 0).runFor unclosed 0 3).2 = .ok .exhausted by decide +kernel)
  have hreach := hturn.trans (Phase.path_of_steps hsteps)
  refine ⟨((threads_well_formed _).1 it hit).2 0, _, hreach, ?_, ?_, ?_, ?_,
    (threads_well_formed _).2 _ _ _ _ hreach⟩
  all_goals decide +kernel

end Interpreter

end RoomScript
