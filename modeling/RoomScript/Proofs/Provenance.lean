import RoomScript.Proofs.Representation
import RoomScript.Proofs.Structured.Code

/-!
# Where the addresses of a thread come from

A thread keeps addresses in its return addresses, in its jump stacks and in its loop slots. Whatever the
bytes of the program are, each address in use was computed from the operands of an instruction that opens
what the address belongs to, and that instruction still stands in the code. A position that is no entry
point is therefore never far behind the end of the code.

A closed conditional block leaves its target above the top of the jump stack, and leaving a loop early
raises the top again, up to what it was when the loop was opened. So the invariant of a level speaks of
all targets below the number of blocks that some open loop keeps, not only of those below the top.
-/
namespace RoomScript

namespace Program

variable {p : Program} {position : Nat}

theorem has_of_instructionAt {i : Instruction} (h : p.instructionAt position = .ok i) :
    p.Has position i.bytes := by
  unfold instructionAt Instruction.decodeAt at h
  split at h
  · cases h
  · rename_i byte hbyte
    split at h
    · cases h
    · rename_i opcode hop
      simp only at h
      split at h
      · cases h
        intro k hk
        cases k with
        | zero =>
            rw [Nat.add_zero, hbyte, ← Opcode.byte_of_ofByte? hop]
            rfl
        | succ k =>
            have hlength := hk
            simp only [Instruction.bytes, List.length_cons, Array.length_toList,
              Array.size_extract] at hlength
            simp only [Instruction.bytes, List.getElem?_cons_succ, Array.getElem?_toList,
              Array.getElem?_extract]
            rw [if_pos (by omega), Nat.add_assoc, Nat.add_comm 1 k]
      · cases h

theorem le_size_of_has {bytes : List UInt8} (h : p.Has position bytes) (hb : bytes ≠ []) :
    position + bytes.length ≤ p.code.size := by
  have hpos := List.length_pos_iff.mpr hb
  have hlast := h (bytes.length - 1) (by omega)
  rw [List.getElem?_eq_getElem (by omega)] at hlast
  have hlt := (Array.getElem?_eq_some_iff.mp hlast).1
  omega

theorem le_size_of_instructionAt {i : Instruction} (h : p.instructionAt position = .ok i) :
    position + i.width ≤ p.code.size := by
  rw [← i.length_bytes]
  exact le_size_of_has (has_of_instructionAt h) (by simp [Instruction.bytes])

/-- A position at which a thread may stand: an entry point, or one no farther behind the end of the code
than a length can span. -/
def Near (p : Program) (position : Nat) : Prop :=
  position ∈ p.entries ∨ position ≤ p.code.size + 65535

/-- Where a conditional block that is opened somewhere in the code resumes when its condition fails. -/
def BlockTarget (p : Program) (target : Nat) : Prop :=
  ∃ position pad length, p.Has position (Opcode.ifelCk.byte :: pad :: wordBytes length) ∧
    target = position + 4 + length.toNat

theorem near_of_le (h : position ≤ p.code.size) : p.Near position := .inr (by omega)

theorem near_add (h : position ≤ p.code.size) (length : UInt16) :
    p.Near (position + length.toNat) := by
  have hl := length.toNat_lt
  exact .inr (by omega)

theorem BlockTarget.near {target : Nat} (h : p.BlockTarget target) : p.Near target := by
  obtain ⟨position, pad, length, hbytes, rfl⟩ := h
  exact near_add (le_size_of_has hbytes (List.cons_ne_nil _ _)) length

end Program

/-- A switch lands inside the code, or right behind its end. -/
theorem Landing.position_le_size_of_find {code : Array UInt8} {value : Int16} {start : Nat}
    {landing : Landing} (h : find code value start = .ok landing) :
    landing.position ≤ code.size := by
  have hle : ∀ {position : Nat} {header : Instruction},
      Instruction.decodeAt code position = .ok header → position + header.width ≤ code.size :=
    fun hd => Program.le_size_of_instructionAt (p := { code }) hd
  fun_induction find code value start with
  | case1 => cases h
  | case2 => cases h
  | case3 start header hd =>
      cases h
      exact hle hd
  | case4 start header hd _ _ behind ih => exact ih h
  | case5 start header hd =>
      cases h
      exact hle hd
  | case6 start header hd =>
      cases h
      exact hle hd
  | case7 => cases h

/-- The instruction somewhere in the code that opened a loop slot, and how far the slot has counted down
since: a loop, a switch or a sleep. -/
inductive LoopSlot.OpenedBy (p : Program) (slot : LoopSlot) : Prop
  | loop {position : Nat} {pad : UInt8} {length count : UInt16} :
      p.Has position (Opcode.forLoop.byte :: pad :: (wordBytes length ++ wordBytes count)) →
      slot.loopStart = position + 6 → slot.breakTarget = slot.loopStart + length.toNat →
      slot.counter ≤ count → OpenedBy p slot
  | switch {position : Nat} {id : UInt8} {length : UInt16} :
      p.Has position (Opcode.switch.byte :: id :: wordBytes length) →
      slot.loopStart = position + 4 → slot.breakTarget = slot.loopStart + length.toNat →
      slot.counter = 0 → OpenedBy p slot
  | sleep {position : Nat} {pad : UInt8} {ticks : UInt16} :
      p.Has position (Opcode.sleep.byte :: pad :: wordBytes ticks) →
      slot.loopStart = position + 4 → slot.breakTarget = slot.loopStart →
      slot.counter ≤ ticks → OpenedBy p slot

namespace LoopSlot.OpenedBy

variable {p : Program} {slot : LoopSlot}

/-- Counting down, by whichever instruction, leaves a slot that the same instruction opened. -/
theorem count (h : slot.OpenedBy p) {counter : UInt16} (hc : counter ≤ slot.counter) :
    ({ slot with counter } : LoopSlot).OpenedBy p := by
  cases h with
  | loop hb hs ht hn => exact .loop hb hs ht (UInt16.le_trans hc hn)
  | switch hb hs ht hn => exact .switch hb hs ht (UInt16.le_antisymm (hn ▸ hc) (UInt16.zero_le))
  | sleep hb hs ht hn => exact .sleep hb hs ht (UInt16.le_trans hc hn)

theorem loopStart_le (h : slot.OpenedBy p) : slot.loopStart ≤ p.code.size := by
  cases h with
  | loop hb hs => exact hs ▸ Program.le_size_of_has hb (List.cons_ne_nil _ _)
  | switch hb hs => exact hs ▸ Program.le_size_of_has hb (List.cons_ne_nil _ _)
  | sleep hb hs => exact hs ▸ Program.le_size_of_has hb (List.cons_ne_nil _ _)

theorem near_breakTarget (h : slot.OpenedBy p) : p.Near slot.breakTarget := by
  have hle := h.loopStart_le
  cases h with
  | loop _ _ ht => exact ht ▸ Program.near_add hle _
  | switch _ _ ht => exact ht ▸ Program.near_add hle _
  | sleep _ _ ht => exact ht ▸ Program.near_of_le hle

end LoopSlot.OpenedBy

/-- The entry at an index of the jump stack is in use, or leaving an open loop early may bring it back into
use. -/
def CallLevel.Recoverable (l : CallLevel) (k : Nat) : Prop :=
  k < l.openBlocks ∨ ∃ i, i < l.openLoops ∧ k < (l.loop i).savedBlocks

/-- The targets and the loop slots of a call level come from the code. -/
structure CallLevel.Grounded (p : Program) (l : CallLevel) : Prop where
  jumps : ∀ k, l.Recoverable k → p.BlockTarget (l.jump k)
  loops : ∀ i, i < l.openLoops → (l.loop i).OpenedBy p

namespace CallLevel.Grounded

variable {p : Program} {l l' : CallLevel} {target : Nat} {slot : LoopSlot}

theorem fresh (address : Nat) : Grounded p { returnAddress := address } where
  jumps k hk := by
    rcases hk with hk | ⟨i, hi, _⟩
    · exact absurd hk (Nat.not_lt_zero k)
    · exact absurd hi (Nat.not_lt_zero i)
  loops i hi := absurd hi (Nat.not_lt_zero i)

theorem opens (h : l.Grounded p) (hw : l.WellFormed) (ho : l.OpensBlock target l')
    (ht : p.BlockTarget target) : l'.Grounded p where
  jumps k hk := by
    by_cases he : k = l.jumpTop
    · rw [he, ho.jump_new]
      exact ht
    · rw [ho.jump_old k he]
      apply h.jumps
      rcases hk with hk | ⟨i, hi, hk⟩
      · rw [ho.openBlocks, ← hw.jumpTop] at hk
        exact .inl (by rw [← hw.jumpTop]; omega)
      · rw [ho.openLoops] at hi
        rw [ho.loop] at hk
        exact .inr ⟨i, hi, hk⟩
  loops i hi := by
    rw [ho.openLoops] at hi
    exact ho.loop i ▸ h.loops i hi

theorem pushes (h : l.Grounded p) (hp : l.PushesLoop slot l')
    (hs : slot.savedBlocks = l.openBlocks) (ho : slot.OpenedBy p) : l'.Grounded p where
  jumps k hk := by
    rw [hp.jump]
    apply h.jumps
    rcases hk with hk | ⟨i, hi, hk⟩
    · exact .inl (hp.openBlocks ▸ hk)
    · rcases hp.loop_cases hi with ⟨_, he⟩ | ⟨hlt, he⟩
      · rw [he, hs] at hk
        exact .inl hk
      · rw [he] at hk
        exact .inr ⟨i, hlt, hk⟩
  loops i hi := by
    rcases hp.loop_cases hi with ⟨_, he⟩ | ⟨hlt, he⟩
    · exact he ▸ ho
    · exact he ▸ h.loops i hlt

/-- Closing blocks and loops and counting loops down keeps what stays grounded. -/
theorem lessen (h : l.Grounded p) (hl : l'.openLoops ≤ l.openLoops)
    (hloop : ∀ i, i < l'.openLoops →
      ∃ counter, counter ≤ (l.loop i).counter ∧ l'.loop i = { l.loop i with counter })
    (hjump : ∀ k, l'.jump k = l.jump k)
    (hk : ∀ k, k < l'.openBlocks → l.Recoverable k) : l'.Grounded p where
  jumps k hr := by
    rw [hjump]
    apply h.jumps
    rcases hr with hr | ⟨i, hi, hr⟩
    · exact hk k hr
    · obtain ⟨counter, _, he⟩ := hloop i hi
      rw [he] at hr
      exact .inr ⟨i, by omega, hr⟩
  loops i hi := by
    obtain ⟨counter, hc, he⟩ := hloop i hi
    exact he ▸ (h.loops i (by omega)).count hc

theorem closes (h : l.Grounded p) (hc : l.ClosesBlock target l') : l'.Grounded p := by
  have hb := hc.openBlocks
  exact h.lessen (Nat.le_of_eq hc.openLoops)
    (fun i _ => ⟨_, UInt16.le_refl _, hc.loop i⟩) hc.jump fun k hk => .inl (by omega)

theorem pop (h : l.Grounded p) : l.popLoop.Grounded p :=
  h.lessen (Nat.sub_le _ _) (fun _ _ => ⟨_, UInt16.le_refl _, rfl⟩) (fun _ => rfl)
    fun _ hk => .inl hk

theorem count (h : l.Grounded p) (hc : l.currentLoop? = some slot) {counter : UInt16}
    (hle : counter ≤ slot.counter) : (l.setLoop { slot with counter }).Grounded p := by
  obtain ⟨hpos, hroom, hslot⟩ := currentLoop?_eq_some_iff.mp hc
  refine h.lessen (Nat.le_refl _) (fun i _ => ?_) (fun _ => rfl) fun _ hk => .inl hk
  by_cases he : i = l.openLoops - 1
  · rw [he, loop_setLoop_self hpos hroom, ← hslot]
    exact ⟨counter, hle, rfl⟩
  · rw [loop_setLoop_of_ne he]
    exact ⟨_, UInt16.le_refl _, rfl⟩

/-- The blocks that come back into use when a loop is left early are those that its slot keeps. -/
theorem breaks (h : l.Grounded p) (hc : l.currentLoop? = some slot) :
    { l with openBlocks := slot.savedBlocks }.resyncJumpTop.popLoop.Grounded p := by
  obtain ⟨hpos, _, hslot⟩ := currentLoop?_eq_some_iff.mp hc
  exact h.lessen (Nat.sub_le _ _) (fun _ _ => ⟨_, UInt16.le_refl _, rfl⟩) (fun _ => rfl)
    fun k hk => .inr ⟨l.openLoops - 1, by omega, hslot ▸ hk⟩

theorem drops (h : l.Grounded p) (hd : l.DropsLoops l') : l'.Grounded p := by
  have hb := hd.openBlocks
  exact h.lessen hd.openLoops (fun i _ => ⟨_, UInt16.le_refl _, hd.loop i⟩) hd.jump
    fun k hk => .inl (by omega)

theorem openedBy_current (h : l.Grounded p) (hc : l.currentLoop? = some slot) :
    slot.OpenedBy p := by
  obtain ⟨hpos, _, hslot⟩ := currentLoop?_eq_some_iff.mp hc
  exact hslot ▸ h.loops _ (by omega)

end CallLevel.Grounded

/-- What holds of every call level in use and the position at which it stands. -/
structure CallLevel.Rooted (p : Program) (position : Nat) (l : CallLevel) : Prop where
  near : p.Near position
  wellFormed : l.WellFormed
  grounded : l.Grounded p

namespace CallLevel.Rooted

variable {p : Program} {l l' : CallLevel} {position next : Nat}

theorem openedBy_switch {i : Instruction} {id : UInt8} {length : UInt16}
    (hi : p.instructionAt position = .ok i) (hc : Command.ofInstruction i = .switch id length) :
    (l.slot 0 (position + i.width) (position + i.width + length.toNat)).OpenedBy p := by
  have hb := Program.has_of_instructionAt hi
  rw [Command.bytes_of_switch hc] at hb
  rw [Command.width_of_switch hc]
  exact .switch hb rfl rfl rfl

/-- A jump leads to an operand's distance behind an instruction, or back to an address that was kept. -/
theorem near_of_moves (h : l.Rooted p position) (hm : l.Moves p position next l') : p.Near next := by
  have hlt := hm.lt_size
  cases hm with
  | skip _ => exact Program.near_of_le hlt
  | openElse hi _ _ => exact Program.near_add (Program.le_size_of_instructionAt hi) _
  | passFor hi _ => exact Program.near_add (Program.le_size_of_instructionAt hi) _
  | again _ _ hc _ => exact Program.near_of_le (h.grounded.openedBy_current hc).loopStart_le
  | breakOut _ _ hc => exact (h.grounded.openedBy_current hc).near_breakTarget
  | takeCase _ _ _ hf => exact Program.near_of_le (Landing.position_le_size_of_find hf)
  | passSwitch _ _ _ hf => exact Program.near_of_le (Landing.position_le_size_of_find hf)
  | unwind _ _ _ hc =>
      have hb := closesBlock hc
      have hpos := hb.openBlocks_pos
      have ht := h.wellFormed.jumpTop
      rw [hb.target]
      exact (h.grounded.jumps _ (.inl (by omega))).near
  | _ => exact Program.near_of_le (Program.le_size_of_instructionAt ‹_›)

theorem grounded_of_moves (h : l.Rooted p position) (hm : l.Moves p position next l') :
    l'.Grounded p := by
  have hg := h.grounded
  cases hm with
  | openIf hi hc ho =>
      have hb := Program.has_of_instructionAt hi
      rw [Command.bytes_of_openIf hc] at hb
      rw [Command.width_of_openIf hc] at ho
      exact hg.opens h.wellFormed (opensBlock ho) ⟨_, _, _, hb, rfl⟩
  | openElse _ _ hc => exact hg.closes (closesBlock hc)
  | closeIf _ _ hc => exact hg.closes (closesBlock hc)
  | sleep hi hc hp =>
      have hb := Program.has_of_instructionAt hi
      rw [Command.bytes_of_sleep hc] at hb
      rw [Command.width_of_sleep hc] at hp
      exact hg.pushes (pushesLoop hp) rfl (.sleep hb rfl rfl (UInt16.le_refl _))
  | wake _ _ _ _ => exact hg.pop
  | openFor hi hc _ hp =>
      have hb := Program.has_of_instructionAt hi
      rw [Command.bytes_of_openFor hc] at hb
      rw [Command.width_of_openFor hc] at hp
      exact hg.pushes (pushesLoop hp) rfl (.loop hb rfl rfl (UInt16.le_refl _))
  | again _ _ hc hn => exact hg.count hc (by grind)
  | closeFor _ _ hc _ => exact (hg.count hc (UInt16.zero_le)).pop
  | closeSwitch _ _ _ => exact hg.pop
  | breakOut _ _ hc => exact hg.breaks hc
  | takeCase hi hc hp _ => exact hg.pushes (pushesLoop hp) rfl (openedBy_switch hi hc)
  | passSwitch hi hc hp _ => exact (hg.pushes (pushesLoop hp) rfl (openedBy_switch hi hc)).pop
  | unwind _ _ _ hc => exact (hg.closes (closesBlock hc)).drops (dropsLoops _)
  | _ => exact hg

theorem grounded_of_rests {result : Except Fault Outcome} (h : l.Rooted p position)
    (hr : l.Rests p position result l') : l'.Grounded p := by
  cases hr with
  | asleep _ _ hc hn => exact h.grounded.count hc (by grind)
  | stuck hi hc hp _ => exact h.grounded.pushes (pushesLoop hp) rfl (openedBy_switch hi hc)
  | _ => exact h.grounded

end CallLevel.Rooted

theorem CallLevel.rooted_invariant (p : Program) : Invariant p (Rooted p) where
  start address he := ⟨.inl (List.mem_of_getElem? he), .fresh address, .fresh address⟩
  resync h := h.wellFormed.resync.symm ▸ h
  move h hm :=
    ⟨h.near_of_moves hm, (wellFormed_invariant p).move h.wellFormed hm, h.grounded_of_moves hm⟩
  rest h hr :=
    ⟨h.near, (wellFormed_invariant p).rest h.wellFormed hr, h.grounded_of_rests hr⟩

/-- Every call level but the event's own returns right behind a call, and that of the event which the call
trace has at its place. -/
def Thread.ReturnsToCalls (p : Program) (t : Thread) : Prop :=
  ∀ i : Fin maxCallLevels, 0 < i.val → i ≤ t.depth → ∃ position event,
    p.Has position [Opcode.gosub.byte, event] ∧
    (t.levelAt i).returnAddress = position + 2 ∧ t.callTrace[i.val]? = some event

namespace Thread.ReturnsToCalls

variable {p : Program} {t t' : Thread}

theorem of_depth (h : t.depth = 0) : t.ReturnsToCalls p := by
  intro i hi hle
  rw [h] at hle
  exact absurd hi (Fin.not_lt.mpr hle)

theorem alike (h : t.ReturnsToCalls p) (ha : t.Alike t') (ht : t'.callTrace = t.callTrace) :
    t'.ReturnsToCalls p := by
  intro i hi hle
  rw [ha.depth] at hle
  have hr : (t'.levelAt i).returnAddress = (t.levelAt i).returnAddress := by
    by_cases he : i = t.depth
    · rw [he, levelAt_depth, ← ha.depth, levelAt_depth, ha.returnAddress]
    · rw [ha.levelAt i he]
  rw [hr, ht]
  exact h i hi hle

theorem calls {entry position : Nat} {event : UInt8} (h : t.ReturnsToCalls p)
    (hl : t.callTrace.length = t.depth.val + 1) (hc : t.Calls t' entry event)
    (hb : p.Has position [Opcode.gosub.byte, event]) (hpc : t.pc = position + 2) :
    t'.ReturnsToCalls p := by
  intro i hi hle
  have hd := hc.depth
  have hle' : i.val ≤ t'.depth.val := hle
  rw [hc.callTrace]
  by_cases ho : i ≤ t.depth
  · have hlt : i.val ≤ t.depth.val := ho
    rw [hc.levelAt i ho, List.getElem?_append_left (by omega)]
    exact h i hi ho
  · have hi' : i.val = t.depth.val + 1 := by
      have : ¬i.val ≤ t.depth.val := ho
      omega
    have he : i = t'.depth := Fin.ext (by omega)
    rw [hi', ← hl, List.getElem?_concat_length, he, levelAt_depth, hc.level]
    exact ⟨position, event, hb, hpc, rfl⟩

theorem returns (h : t.ReturnsToCalls p) (hl : t.callTrace.length = t.depth.val + 1)
    (hr : t.Returns t') : t'.ReturnsToCalls p := by
  intro i hi hle
  have hd := hr.depth
  have hle' : i.val ≤ t'.depth.val := hle
  have hlevel : (t'.levelAt i).returnAddress = (t.levelAt i).returnAddress := by
    rcases Fin.lt_or_eq_of_le hle with hlt | he
    · rw [hr.levelAt i hlt]
    · rw [he, levelAt_depth, hr.level]
      rfl
  rw [hlevel, hr.callTrace, List.getElem?_dropLast, if_pos (by omega)]
  exact h i hi (show i.val ≤ t.depth.val by omega)

end Thread.ReturnsToCalls

namespace Thread

theorem returnsToCalls_invariant (p : Program) :
    Invariant p fun t => t.WellFormed ∧ t.ReturnsToCalls p where
  start _ := ⟨.of_start _ _, .of_depth rfl⟩
  resume ha h := ⟨(wellFormed_invariant p).resume ha h.1, h.2⟩
  move := by
    intro t t' ha h hm
    refine ⟨(wellFormed_invariant p).move ha h.1 hm, ?_⟩
    have hl := h.1.callTrace ha
    cases hm with
    | within work hm => exact h.2.alike (t.alike_within _ hm.returnAddress_eq work _) rfl
    | @call i event entry t' hi hc he ht =>
        have hb := Program.has_of_instructionAt hi
        rw [Command.bytes_of_gosub hc] at hb
        have hw := h.2.alike (t.alike_within (t.pc + i.width) rfl t.work t.status) rfl
        exact hw.calls hl (calls_of_call? ht) hb (congrArg (t.pc + ·) (Command.width_of_gosub hc))
    | leave _ _ ht => exact h.2.returns hl (returns_of_return? ht)
  stop := by
    intro t t' result ha h hs
    refine ⟨(wellFormed_invariant p).stop ha h.1 hs, ?_⟩
    cases hs with
    | park hr => exact h.2.alike (t.alike_within _ hr.returnAddress_eq t.work _) rfl
    | fail hr => exact h.2.alike (t.alike_within _ hr.returnAddress_eq t.work t.status) rfl
    | finish => exact .of_depth rfl

/-- Every address that a thread may go to comes from the code: where it stands, where its call levels return
to, the targets of its open conditional blocks, and its open loops, switches and sleeps. -/
structure FromCode (p : Program) (t : Thread) : Prop where
  pc : p.Near t.pc
  returns : t.ReturnsToCalls p
  jumps : ∀ i, ∀ target ∈ (t.levelAt i).jumps, p.BlockTarget target
  loops : ∀ i, ∀ slot ∈ (t.levelAt i).loopList, slot.OpenedBy p

end Thread

theorem Vector.exists_of_mem_take {α : Type} {n k : Nat} {v : Vector α n} {a : α}
    (h : a ∈ v.toList.take k) : ∃ i, i < k ∧ v[i]? = some a := by
  obtain ⟨i, hi, he⟩ := List.mem_take_iff_getElem.mp h
  refine ⟨i, by omega, ?_⟩
  rw [← Vector.getElem?_toList, List.getElem?_eq_getElem (by omega), he]

namespace CallLevel.Grounded

variable {p : Program} {l : CallLevel}

theorem of_mem_jumps (h : l.Grounded p) (hw : l.WellFormed) {target : Nat}
    (ht : target ∈ l.jumps) : p.BlockTarget target := by
  obtain ⟨k, hk, he⟩ := Vector.exists_of_mem_take ht
  have hjump : l.jump k = target := by rw [jump, he, Option.getD_some]
  exact hjump ▸ h.jumps k (.inl (hw.jumpTop ▸ hk))

theorem of_mem_loopList (h : l.Grounded p) {slot : LoopSlot} (hs : slot ∈ l.loopList) :
    slot.OpenedBy p := by
  obtain ⟨i, hi, he⟩ := Vector.exists_of_mem_take hs
  have hloop : l.loop i = slot := by rw [loop, he, Option.getD_some]
  exact hloop ▸ h.loops i hi

end CallLevel.Grounded

namespace Thread

variable {p : Program} {t : Thread}

/-- A level that is not in use has nothing open. -/
theorem grounded_levelAt (hw : t.WellFormed) (h : t.Holds (CallLevel.Rooted p))
    (i : Fin maxCallLevels) : (t.levelAt i).Grounded p := by
  rcases Fin.lt_or_le t.depth i with hlt | hle
  · rw [hw.unused i hlt]
    exact .fresh 0
  · exact (h i hle).grounded

theorem fromCode (hw : t.WellFormed) (hr : t.ReturnsToCalls p)
    (h : t.Holds (CallLevel.Rooted p)) : t.FromCode p where
  pc := h.level.near
  returns := hr
  jumps i _ ht := (grounded_levelAt hw h i).of_mem_jumps (hw.level i) ht
  loops i _ hs := (grounded_levelAt hw h i).of_mem_loopList hs

end Thread

/-- In a session over one program, whatever its bytes and its entry points are, all addresses of all live
threads come from its code: whenever the host has its turn, and at every single instruction. -/
theorem Interpreter.addresses_from_code (p : Program) :
    (∀ it : Interpreter, it.Reachable (· = p) → ∀ slot, (it.threads.thread slot).isAlive →
      (it.threads.thread slot).FromCode p) ∧
    ∀ φ : Phase, φ.Reachable (· = p) → ∀ slot, (φ.thread slot).isAlive →
      (φ.thread slot).FromCode p := by
  have hphase : ∀ φ : Phase, φ.Reachable (· = p) → ∀ slot, (φ.thread slot).isAlive →
      (φ.thread slot).FromCode p := by
    intro φ h slot ha
    have hcalls : ∀ q, q = p →
        Thread.Invariant q fun t => t.WellFormed ∧ t.ReturnsToCalls p := by
      rintro q rfl
      exact Thread.returnsToCalls_invariant q
    have hlevels : ∀ q, q = p →
        Thread.Invariant q fun t => t.isAlive → t.Holds (CallLevel.Rooted p) := by
      rintro q rfl
      exact Thread.invariant_of_levels (CallLevel.rooted_invariant q)
    have hthread := h.all hcalls ⟨.of_dead, .of_depth rfl⟩ slot
    exact Thread.fromCode hthread.1 hthread.2 (h.all hlevels (fun hd => by cases hd) slot ha)
  exact ⟨fun it h slot ha => hphase _ (Phase.reachable_idle h) slot ha, hphase⟩

/-- A subroutine that opens a loop inside a conditional block, closes the block inside the loop and then
leaves the loop, so that the block is open again, and sleeps. -/
def reviving : Program :=
  .ofFunctions [[Line.gosub 1, .evtEnd].flatMap Line.encode,
    ([Line.mk .ifelCk [0, 20, 0], .mk .forLoop [0, 4, 0, 2, 0], .mk .endif [], .breakOut] ++
      Line.sleep 3).flatMap Line.encode]

theorem Interpreter.addresses_from_code_reviving :
    let it := (({} : Interpreter).serve reviving (.startEvent 0)).interpreter
    (it.threads.thread 0).FromCode reviving ∧
      ∃ m : Machine, Phase.Reachable (· = reviving) (.running reviving 0 [] m) ∧
        m.thread.depth = 1 ∧ m.thread.level.jumps = [28] ∧
        m.thread.level.loopList.map LoopSlot.loopStart = [22] ∧ m.thread.FromCode reviving := by
  intro it
  have hit : it.Reachable (· = reviving) := .serve (.startEvent 0) rfl .fresh
  have hturn : Phase.Reachable (· = reviving) (.running reviving 0 [] (it.machine 0)) :=
    ((Phase.reachable_idle hit).tail (.runThread it 0 rfl)).tail (.turn rfl)
  have hsteps := Machine.steps_of_exhausted
    (show ((it.machine 0).runFor reviving 0 6).2 = .ok .exhausted by decide +kernel)
  have hreach := hturn.trans (Phase.path_of_steps hsteps)
  refine ⟨(addresses_from_code reviving).1 it hit 0 rfl, _, hreach, ?_, ?_, ?_,
    (addresses_from_code reviving).2 _ hreach 0 ?_⟩
  all_goals decide +kernel

end RoomScript
