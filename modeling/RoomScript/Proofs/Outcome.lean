import RoomScript.Proofs.Dispatch.Scan
import RoomScript.Proofs.Failure

/-!
# How a run ends

A run of a live thread ends in one of four ways, and each of them can be read off what the run leaves: a dead
slot, a thread that waits at a sleep, a thread that waits at a condition which is false, or a thread at an
instruction that fails. Which fault a failing instruction reports can be told from the program, the store and
the thread that are left, and the position in a fault from the position of the thread.
-/
namespace RoomScript

variable {p : Program} {slot : Slot}

/-- A check or a comparison that is false in a store. A comparison with an operator code that means nothing is
one. -/
inductive Instruction.FalseIn (i : Instruction) (s : Store) : Prop
  | check : i.opcode = .ck → (s.flag (i.byte 1) (i.byte 2)).toUInt8 ≠ i.byte 3 → FalseIn i s
  | compare : i.opcode = .cmp →
      (∀ op, CompareOp.ofCode? (i.byte 3) = some op →
        op.test (s.var (i.byte 2)) (i.int 4) = false) → FalseIn i s

/-- Why a command fails, told by the store and the thread that it leaves. -/
inductive Command.FailsIn (p : Program) (s : Store) (t : Thread) : Command → Fault → Prop
  | unknownSubroutine {event : UInt8} :
      p.entry? event = none → FailsIn p s t (.flow (.gosub event)) (.unknownEvent event)
  | unknownEvent {requested event : UInt8} :
      p.entry? event = none → FailsIn p s t (.event (.exec requested event)) (.unknownEvent event)
  | callStackOverflow {event : UInt8} :
      (p.entry? event).isSome → t.depth.val + 1 = maxCallLevels →
      FailsIn p s t (.flow (.gosub event)) (.callStackOverflow t.pc)
  | callStackUnderflow : t.depth.val = 0 → FailsIn p s t (.flow .ret) (.callStackUnderflow t.pc)
  | jumpStackOverflow {length : UInt16} : t.level.openBlocks = jumpStackDepth →
      FailsIn p s t (.flow (.openIf length)) (.jumpStackOverflow t.pc)
  | jumpStackUnderflow {c : Command} : c.ClosesBlock → t.level.openBlocks = 0 →
      FailsIn p s t c (.jumpStackUnderflow t.pc)
  | loopOverflow {c : Command} : c.OpensLoop → t.level.openLoops = loopSlots →
      FailsIn p s t c (.loopOverflow t.pc)
  | noEnclosingLoop {c : Command} : c.NeedsLoop → t.level.openLoops = 0 →
      FailsIn p s t c (.noEnclosingLoop t.pc)
  | divisionByZero {op : CalcOp} {id : UInt8} : op.divides →
      FailsIn p s t (.data (.calculate (some op) id 0)) (.divisionByZero t.pc)
  | divisionByVariable {op : CalcOp} {id source : UInt8} : op.divides → s.var source = 0 →
      FailsIn p s t (.data (.calculateFrom (some op) id source)) (.divisionByZero t.pc)
  /-- A switch without a landing, whose own slot is open. -/
  | lost {id : UInt8} {length : UInt16} {fault : Fault} : 0 < t.level.openLoops →
      Landing.find p.code (s.var id) (t.pc + Opcode.switch.width) = .error fault →
      FailsIn p s t (.switch id length) fault

namespace Thread

/-- A thread has failed where it stands: there is no whole instruction there, or the instruction fails. -/
inductive Failed (p : Program) (s : Store) (t : Thread) : Fault → Prop
  | missing {cause : DecodeError} : Instruction.Missing p.code t.pc cause →
      Failed p s t (.decode t.pc cause)
  | command {i : Instruction} {fault : Fault} : p.instructionAt t.pc = .ok i →
      (Command.ofInstruction i).FailsIn p s t fault → Failed p s t fault

/-- How a run ends: its result, with the store and the thread that it leaves. -/
inductive LeftBy (p : Program) (s : Store) : Except Fault Outcome → Thread → Prop
  | terminated : LeftBy p s (.ok .terminated) Thread.dead
  | suspended {t : Thread} {i : Instruction} : t.status = .suspended →
      p.instructionAt t.pc = .ok i → i.opcode = .sleeping → 0 < t.level.openLoops →
      LeftBy p s (.ok .suspended) t
  | unwound {t : Thread} {i : Instruction} : t.status = .suspended →
      p.instructionAt t.pc = .ok i → i.FalseIn s → t.level.openBlocks = 0 →
      LeftBy p s (.ok .unwound) t
  | failed {t : Thread} {fault : Fault} : t.status = .running → t.Failed p s fault →
      LeftBy p s (.error fault) t

end Thread

/-- What the position in a fault says of the thread that has met it. A fault that a switch meets in its headers
stands ahead of the thread, an unknown event stands nowhere, and all others stand where the thread does. -/
def Fault.Locates (p : Program) (t : Thread) : Fault → Prop
  | .decode position cause =>
    Instruction.Missing p.code position cause ∧
      (position = t.pc ∨
        t.pc < position ∧ ∃ i, p.instructionAt t.pc = .ok i ∧ i.opcode = .switch)
  | .malformedSwitch position _ =>
    t.pc < position ∧ ∃ i, p.instructionAt t.pc = .ok i ∧ i.opcode = .switch
  | .unknownEvent _ => True
  | .invalidThread _ => False
  | .callStackOverflow position | .callStackUnderflow position | .jumpStackOverflow position
  | .jumpStackUnderflow position | .loopOverflow position | .noEnclosingLoop position
  | .divisionByZero position => position = t.pc

theorem Thread.Failed.locates {s : Store} {t : Thread} {fault : Fault} (h : t.Failed p s fault) :
    fault.Locates p t := by
  cases h with
  | missing hmissing => exact ⟨hmissing, .inl rfl⟩
  | @command i _ hi hc =>
      generalize hcommand : Command.ofInstruction i = c at hc
      cases hc with
      | unknownSubroutine _ => trivial
      | unknownEvent _ => trivial
      | lost _ hfind =>
          have hswitch : ∃ i, p.instructionAt t.pc = .ok i ∧ i.opcode = .switch :=
            ⟨i, hi, Command.opcode_of_switch hcommand⟩
          have hwidth := Opcode.switch.width_pos
          cases Landing.lost_of_find hfind with
          | malformed hstart _ => exact ⟨by omega, hswitch⟩
          | missing hstart hmissing => exact ⟨hmissing, .inr ⟨by omega, hswitch⟩⟩
      | _ => rfl

/-- A command of a data group that reports a false condition. -/
theorem DataCommand.false_of_run {i : Instruction} {c : DataCommand} {position : Nat} {s : Store}
    (hc : Command.ofInstruction i = .data c) (h : (c.run position s).2 = .ok .conditionFalse) :
    i.FalseIn (c.run position s).1 := by
  cases c with
  | checkBit array bit expected =>
      have hop : i.opcode = .ck := Command.opcode_of_opcode? (congrArg Command.opcode? hc)
      simp only [Command.ofInstruction, hop] at hc
      cases hc
      refine .check hop fun he => ?_
      simp only [run, Store.readFlag, Store.flag_touchFlag] at h he
      simp [he, Signal.ofCondition] at h
  | compare id op value =>
      have hop : i.opcode = .cmp := Command.opcode_of_opcode? (congrArg Command.opcode? hc)
      simp only [Command.ofInstruction, hop] at hc
      cases hc
      refine .compare hop fun op hcode => ?_
      simp only [hcode, run, Store.readVar, Store.var_touchVar] at h ⊢
      by_contra ht
      simp [ht, Signal.ofCondition] at h
  | setBit array bit op => rcases op with _ | _ | _ | _ <;> cases h
  | save id value => cases h
  | copy target source => cases h
  | calculate op id value =>
      cases op with
      | none => cases h
      | some op => cases Store.signal_of_calculate h
  | calculateFrom op id source =>
      cases op with
      | none => cases h
      | some op => cases Store.signal_of_calculate h

namespace Machine

variable {m m' : Machine} {i : Instruction} {fault : Fault}

/-- A thread waits outside all blocks only because the condition at which it stands is false. -/
theorem settle_eq_unwound {position : Nat} {result : Except Fault Signal}
    (h : m.settle position result = .stopped m' (.ok .unwound)) :
    result = .ok .conditionFalse ∧ m'.store = m.store := by
  have hstore := store_settle position m result
  rw [h] at hstore
  refine ⟨?_, hstore⟩
  rcases result with _ | _ | _ | _ | _ <;> first | rfl | cases h

/-- On a well formed level the loop reports a fault only when the instruction has one. -/
theorem settle_eq_error {position : Nat} {result : Except Fault Signal}
    (hw : m.thread.level.WellFormed)
    (h : m.settle position result = .stopped m' (.error fault)) : result = .error fault := by
  rcases result with _ | _ | _ | _ | _
  case ok.conditionFalse => exact absurd h (unwind_ne_error hw)
  all_goals
    cases h
    try rfl

end Machine

theorem Store.divides_of_calculate {s : Store} {position : Nat} {op : CalcOp} {id : UInt8}
    {rhs : Int16} {fault : Fault} (h : (s.calculate position op id rhs).2 = .error fault) :
    op.divides ∧ rhs = 0 := by
  simp only [calculate] at h
  split at h
  · cases h
  · rename_i hnone
    exact CalcOp.eval?_eq_none_iff.mp hnone

/-- A data command fails when it divides by zero. Reading has not changed the values that it has seen. -/
theorem DataCommand.failsIn_of_run {c : DataCommand} {s s' : Store} {t : Thread}
    (hs : s.ReadsTo s') (h : (c.run t.pc s).2 = .error (.divisionByZero t.pc)) :
    (Command.data c).FailsIn p s' t (.divisionByZero t.pc) := by
  unfold DataCommand.run at h
  split at h
  case h_11 =>
      obtain ⟨hop, rfl⟩ := Store.divides_of_calculate h
      exact .divisionByZero hop
  case h_13 op id source =>
      obtain ⟨hop, hzero⟩ := Store.divides_of_calculate h
      have hread : s'.var source = s.var source := hs.agree (.var source)
      exact .divisionByVariable hop (hread.trans hzero)
  all_goals cases h

namespace FlowCommand

variable {t : Thread} {pc : Nat} {s : Store}

theorem failsIn_gosub {event : UInt8}
    (h : FlowCommand.run p t.pc { t with pc } (.gosub event) = .error (.callStackOverflow t.pc)) :
    Command.FailsIn p s t (.flow (.gosub event)) (.callStackOverflow t.pc) := by
  simp only [run] at h
  split at h
  · cases h
  · rename_i entry hentry
    split at h
    · cases h
    · rename_i hcall
      simp only [Thread.call?] at hcall
      split at hcall
      · cases hcall
      · have hlt := t.depth.isLt
        exact .callStackOverflow (by rw [hentry]; rfl) (by omega)

theorem failsIn_ret (h : FlowCommand.run p t.pc { t with pc } .ret = .error (.callStackUnderflow t.pc)) :
    Command.FailsIn p s t (.flow .ret) (.callStackUnderflow t.pc) := by
  simp only [run, Thread.leave] at h
  split at h
  · cases h
  · rename_i hreturn
    simp only [Thread.return?] at hreturn
    split at hreturn
    · exact .callStackUnderflow ‹_›
    · cases hreturn

end FlowCommand

namespace Machine

variable {m m' : Machine} {fault : Fault}

/-- The reasons of the faults that leave the thread as it was. -/
theorem failed_of_fails (hw : m.thread.level.WellFormed)
    (h : m.step p slot = .stopped m' (.error fault))
    (hf : m.thread.level.Fails p m.thread.pc fault) : m.thread.Failed p m'.store fault := by
  have hjump := hw.jumpTop
  have hblocks := hw.openBlocks
  have hloops := hw.openLoops
  cases hf with
  | decode hi hc =>
      rcases Instruction.decodeAt_eq_error hi with ⟨byte, _, _, rfl⟩ | hmissing
      · exact absurd rfl (hc byte)
      · exact .missing hmissing
  | unknownSubroutine hi hc he => exact .command hi (hc ▸ .unknownSubroutine he)
  | unknownEvent hi hc he => exact .command hi (hc ▸ .unknownEvent he)
  | callStackOverflow hi hc =>
      exact .command hi (hc ▸ FlowCommand.failsIn_gosub (fault_flow hi hc h).2)
  | callStackUnderflow hi hc =>
      exact .command hi (hc ▸ FlowCommand.failsIn_ret (fault_flow hi hc h).2)
  | jumpStackOverflow hi hc hb =>
      have hfull := CallLevel.full_of_openBlock? hb
      exact .command hi (hc ▸ .jumpStackOverflow (by omega))
  | jumpStackUnderflow hi hc hb =>
      exact .command hi (.jumpStackUnderflow hc (hw.openBlocks_eq_zero hb))
  | loopOverflow hi hc hl =>
      have hfull := CallLevel.full_of_pushLoop? hl
      exact .command hi (.loopOverflow hc (Nat.le_antisymm hloops hfull))
  | noEnclosingLoop hi hc hl =>
      refine .command hi (.noEnclosingLoop hc ?_)
      by_contra ho
      obtain ⟨loop, hcurrent, _⟩ := hw.inRange.currentLoop (Nat.pos_of_ne_zero ho)
      rw [hl] at hcurrent
      cases hcurrent
  | divisionByZero hi hc =>
      have hstore := (failsTo_of_stopped h).store
      rw [step_data hi hc] at h
      have hfault := settle_eq_error (by exact hw) h
      exact .command hi (hc ▸ DataCommand.failsIn_of_run hstore hfault)
  | unwind _ _ ho hb => exact absurd (hw.openBlocks_eq_zero hb) ho

/-- Why an iteration has failed. -/
theorem failed_of_stopped (hw : m.thread.level.WellFormed)
    (h : m.step p slot = .stopped m' (.error fault)) : m'.thread.Failed p m'.store fault := by
  have hstop := stops_of_stopped h
  generalize hr : (Except.error fault : Except Fault Outcome) = result, ht : m'.thread = t'
    at hstop
  cases hstop with
  | park _ => cases hr
  | finish => cases hr
  | fail hrest =>
      cases hr
      cases hrest with
      | failed hf =>
          rw [Thread.within_self]
          exact failed_of_fails hw h hf
      | @stuck i id length _ _ level hi hc hl _ =>
          obtain ⟨hfull, _⟩ | ⟨opened, hopen, hfind, rfl⟩ := fault_switch hi hc h
          · rw [hl] at hfull
            cases hfull
          · have hlevel : m.thread.level.PushesLoop _ opened := CallLevel.pushesLoop hopen
            rw [← ht]
            refine .command hi (hc ▸ .lost ?_ ?_)
            · rw [Thread.level_within, hlevel.openLoops]
              exact Nat.succ_pos _
            · rw [Store.var_touchVar]
              have hwidth := Command.width_of_switch hc
              rwa [hwidth] at hfind

/-- What a run leaves when its last iteration stops. -/
theorem leftBy_of_stopped {result : Except Fault Outcome} (hw : m.thread.level.WellFormed)
    (hrunning : m.thread.status = .running) (h : m.step p slot = .stopped m' result) :
    m'.thread.LeftBy p m'.store result := by
  have hstop := stops_of_stopped h
  generalize ht : m'.thread = t' at hstop
  cases hstop with
  | finish => exact .terminated
  | fail hrest =>
      have hstatus := (stops_of_stopped h).status_of_fault
      rw [← ht]
      exact .failed (hstatus.trans hrunning) (failed_of_stopped hw h)
  | park hrest =>
      cases hrest with
      | asleep hi hc hl _ =>
          have hop := Command.opcode_of_opcode? (congrArg Command.opcode? hc)
          have hlevel (level : CallLevel) :
              { m.thread.within m.thread.pc level with status := .suspended }.level = level :=
            m.thread.level_within m.thread.pc level
          refine .suspended rfl hi hop ?_
          rw [hlevel]
          exact (CallLevel.currentLoop?_eq_some_iff.mp hl).1
      | unwound hi hc ho =>
          rw [step_data hi hc] at h
          obtain ⟨hfalse, hstore⟩ := settle_eq_unwound h
          rw [Thread.within_self]
          exact .unwound rfl hi (hstore ▸ DataCommand.false_of_run hc hfalse) ho

end Machine

namespace Interpreter

variable {it : Interpreter}

/-- Whatever programs an interpreter has run before, a run of a live thread ends in one of the four ways, and
its fault, if it ends in one, tells where the thread has been left. -/
theorem Reachable.run_outcome (h : it.Reachable fun _ => True) (p : Program)
    (ha : (it.threads.thread slot).isAlive) :
    let report := it.runThread p slot.val
    let left := report.interpreter.threads.thread slot
    left.LeftBy p report.interpreter.store report.result ∧
      ∀ fault, report.result = .error fault → fault.Locates p left := by
  obtain ⟨n, m, result, _, hends⟩ := exists_ends h p ha
  obtain ⟨k, last, _, hsteps, hlast⟩ := hends.split
  have hT := Thread.wellFormed_invariant p
  have hkeeps := (machine_keeps hT (h.all (fun p _ => Thread.wellFormed_invariant p) .of_dead) ha).steps
    hT .of_dead hsteps
  have hleft : m.thread.LeftBy p m.store result :=
    Machine.leftBy_of_stopped (hkeeps.thread.level _) hsteps.status hlast
  intro report left
  have hreport : report = reportOf slot (m, result) := by
    rw [← runSlot_of_ends h ha hends]
    exact runThread_val it p slot
  have hthread : left = m.thread := by
    rw [← thread_reportOf slot (m, result), ← hreport]
  rw [hthread, hreport]
  refine ⟨hleft, fun fault hf => ?_⟩
  rw [result_reportOf] at hf
  subst hf
  cases hleft with
  | failed _ hfailed => exact hfailed.locates

/-- Four events that end, sleep, wait for a flag and come to a switch without a case. -/
def parting : Program :=
  .ofFunctions [[Line.evtEnd].flatMap Line.encode, (Line.sleep 5).flatMap Line.encode,
    [Line.checkBit 1 2 1, .evtEnd].flatMap Line.encode,
    [{ opcode := .switch, operands := [9, 2, 0] }, Line.evtEnd].flatMap Line.encode]

theorem run_outcome_parting :
    let it := [0, 1, 2, 3].foldl
      (fun (it : Interpreter) event => (it.serve parting (.startEvent event)).interpreter) {}
    [0, 1, 2, 3].map (fun number => (it.runThread parting number).result) =
        [.ok .terminated, .ok .suspended, .ok .unwound, .error (.malformedSwitch 19 1)] ∧
      ∀ slot : Slot, slot.val < 4 →
        let report := it.runThread parting slot.val
        let left := report.interpreter.threads.thread slot
        left.LeftBy parting report.interpreter.store report.result ∧
          ∀ fault, report.result = .error fault → fault.Locates parting left := by
  intro it
  have hit : it.Reachable fun _ => True :=
    .serve (.startEvent 3) trivial (.serve (.startEvent 2) trivial
      (.serve (.startEvent 1) trivial (.serve (.startEvent 0) trivial .fresh)))
  have halive : ∀ slot : Slot, slot.val < 4 → (it.threads.thread slot).isAlive := by
    decide +kernel
  exact ⟨by decide +kernel, fun slot hslot => Reachable.run_outcome hit parting (halive slot hslot)⟩

end Interpreter

end RoomScript
