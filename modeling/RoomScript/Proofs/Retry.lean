import RoomScript.Proofs.Dispatch.Again
import RoomScript.Proofs.Representation
import Mathlib.Logic.Function.Iterate

/-!
# Running a failed thread again

A thread that fails stays on its instruction, so that a later run reports the fault again instead of passing
over it. Here the slot of a failed run is run again any number of times with nothing else in between. Almost
always the interpreter is then the same after each run, and the fault too. Only at a switch without a landing
every run leaves one more loop slot open, and from some run on the fault is that there is none left.
-/
namespace RoomScript

variable {p : Program} {slot : Slot}

theorem Thread.Stops.status_of_fault {t t' : Thread} {fault : Fault}
    (h : t.Stops p (.error fault) t') : t'.status = t.status := by
  cases h
  rfl

theorem Machine.Steps.status {n : Nat} {m m' : Machine} (h : Steps p slot n m m') :
    m'.thread.status = m.thread.status :=
  h.keeps (I := fun m' => m'.thread.status = m.thread.status)
    (fun _ _ hm hs => (moves_of_running hs).status.trans hm) rfl

namespace Thread.Stuck

variable {s : Store} {t t' : Thread} {cause cause' : Fault}

/-- Being stuck is a matter of the position. -/
theorem congr (h : t.Stuck p s cause) (hpc : t'.pc = t.pc) : t'.Stuck p s cause := by
  obtain ⟨hi, hc, hf⟩ := h
  rw [← hpc] at hi hf
  exact .intro hi hc hf

/-- A switch has one fault. -/
theorem unique (h : t.Stuck p s cause) (h' : t.Stuck p s cause') : cause = cause' := by
  obtain ⟨hi, hc, hf⟩ := h
  obtain ⟨hi', hc', hf'⟩ := h'
  rw [hi] at hi'
  cases hi'
  rw [hc] at hc'
  cases hc'
  rw [hf] at hf'
  cases hf'
  rfl

end Thread.Stuck

namespace Machine

variable {m m' : Machine} {fault cause : Fault}

/-- An iteration that fails and leaves a thread at a switch without a landing, with room for another loop, has
failed for the reason of the switch. -/
theorem fault_of_stuck (h : m.step p slot = .stopped m' (.error fault))
    (hs : m'.thread.Stuck p m'.store cause) (hroom : m'.thread.level.openLoops < loopSlots) :
    fault = cause := by
  by_cases hstuck : ∃ cause', m.thread.Stuck p m.store cause'
  · obtain ⟨cause', hstuck⟩ := hstuck
    obtain ⟨_, hstep, hs', _, hloops⟩ := step_stuck hstuck slot
    rw [h] at hstep
    cases hstep
    split at hloops
    · rename_i hlt
      rw [if_pos hlt, hs.unique hs']
    · omega
  · -- The failed iteration would change nothing when it is repeated, but a stuck one opens a loop.
    have hagain := step_fault_again h (not_exists.mp hstuck) m' rfl rfl
    obtain ⟨_, hstep, _, _, hloops⟩ := step_stuck hs slot
    rw [hagain] at hstep
    cases hstep
    rw [if_pos hroom] at hloops
    omega

end Machine

namespace Interpreter

/-- The interpreter after some more runs of the thread in the slot with a number. -/
def rerun (p : Program) (number n : Nat) (it : Interpreter) : Interpreter :=
  (fun it => (it.runThread p number).interpreter)^[n] it

/-- The thread in a slot stands at a switch that ends in a fault instead of a landing. -/
def Stuck (p : Program) (slot : Slot) (cause : Fault) (it : Interpreter) : Prop :=
  (it.threads.thread slot).Stuck p it.store cause

variable {it : Interpreter} {number position opened : Nat} {fault cause : Fault}

theorem rerun_succ (p : Program) (number n : Nat) (it : Interpreter) :
    it.rerun p number (n + 1) = ((it.rerun p number n).runThread p number).interpreter :=
  Function.iterate_succ_apply' _ _ _

theorem rerun_of_fixed (h : (it.runThread p number).interpreter = it) (n : Nat) :
    it.rerun p number n = it :=
  Function.iterate_fixed h n

theorem thread_reportOf (slot : Slot) (ran : Machine × Except Fault Outcome) :
    (reportOf slot ran).interpreter.threads.thread slot = ran.1.thread :=
  Pool.thread_put_self _ _ _

/-- A run that fails does so in an iteration, and what that iteration has made of the thread and of the store
is there afterwards. -/
theorem exists_failed_step (h : it.Reachable fun _ => True)
    (hf : (it.runSlot p slot).result = .error fault) :
    ∃ last m : Machine, last.step p slot = .stopped m (.error fault) ∧
      m.thread.status = .running ∧
      (it.runSlot p slot).interpreter.threads.thread slot = m.thread ∧
      (it.runSlot p slot).interpreter.store = m.store := by
  by_cases ha : (it.threads.thread slot).isAlive
  · obtain ⟨n, m, result, _, hends⟩ := exists_ends h p ha
    rw [runSlot_of_ends h ha hends] at hf ⊢
    cases hf
    obtain ⟨_, last, _, hsteps, hlast⟩ := hends.split
    have hstatus := (Machine.stops_of_stopped hlast).status_of_fault.trans hsteps.status
    exact ⟨last, m, hlast, hstatus, thread_reportOf _ _, rfl⟩
  · rw [runSlot_of_dead ha] at hf
    cases hf

theorem isAlive_of_running (h : (it.threads.thread slot).status = .running) :
    (it.threads.thread slot).isAlive := by
  rw [Thread.isAlive, h]
  rfl

theorem thread_machine (h : (it.threads.thread slot).status = .running) :
    (it.machine slot).thread = it.threads.thread slot := by
  simp only [machine, ← h]

/-- A run that stops where it starts leaves the interpreter as it is. -/
theorem reportOf_machine (h : (it.threads.thread slot).status = .running)
    (result : Except Fault Outcome) :
    reportOf slot (it.machine slot, result) = { interpreter := it, result } := by
  have hput : (it.machine slot).pool.put slot (it.threads.thread slot) = it.threads :=
    Vector.set_getElem_self _
  simp only [reportOf, thread_machine h, hput]
  rfl

/-- A run that fails anywhere but at a switch without a landing can be repeated. -/
theorem runSlot_again (h : it.Reachable fun _ => True)
    (hf : (it.runSlot p slot).result = .error fault)
    (hs : ∀ cause, ¬(it.runSlot p slot).interpreter.Stuck p slot cause) :
    (it.runSlot p slot).interpreter.runSlot p slot =
      { interpreter := (it.runSlot p slot).interpreter, result := .error fault } := by
  obtain ⟨last, m, hlast, hstatus, hthread, hstore⟩ := exists_failed_step h hf
  have hfailed := h.runSlot (p := p) trivial slot
  generalize (it.runSlot p slot).interpreter = failed at *
  -- The failed iteration was not at such a switch, or it would have left the thread there.
  have hagain : m.FailsAgain p slot fault := by
    refine Machine.step_fault_again hlast fun cause hstuck => ?_
    obtain ⟨m', hm', hstuck', _⟩ := Machine.step_stuck hstuck slot
    rw [hlast] at hm'
    cases hm'
    exact hs cause (by rwa [Stuck, hthread, hstore])
  have hrunning : (failed.threads.thread slot).status = .running := by rw [hthread, hstatus]
  have hstep := hagain (failed.machine slot) ((thread_machine hrunning).trans hthread) hstore
  rw [runSlot_of_ends hfailed (isAlive_of_running hrunning) (.stop hstep),
    reportOf_machine hrunning]

/-- The thread in a slot is at work on a switch without a landing, for which it has opened loop slots. -/
structure StuckAt (p : Program) (slot : Slot) (position : Nat) (cause : Fault) (opened : Nat)
    (it : Interpreter) : Prop where
  running : (it.threads.thread slot).status = .running
  stuck : it.Stuck p slot cause
  pc : (it.threads.thread slot).pc = position
  openLoops : (it.threads.thread slot).level.openLoops = min loopSlots opened

namespace StuckAt

/-- A further run of the slot opens one more loop, or reports that there is no room for it. -/
theorem runSlot (hs : it.StuckAt p slot position cause opened) (h : it.Reachable fun _ => True) :
    (it.runSlot p slot).result =
        .error (if opened < loopSlots then cause else .loopOverflow position) ∧
      (it.runSlot p slot).interpreter.StuckAt p slot position cause (opened + 1) := by
  have hthread := thread_machine hs.running
  have hstuck : (it.machine slot).thread.Stuck p (it.machine slot).store cause :=
    hs.stuck.congr (congrArg Thread.pc hthread)
  obtain ⟨m, hstep, hstuck', hpc, hloops⟩ := Machine.step_stuck hstuck slot
  have hstatus := (Machine.stops_of_stopped hstep).status_of_fault
  have hroom : (it.threads.thread slot).level.openLoops < loopSlots ↔ opened < loopSlots := by
    rw [hs.openLoops]
    omega
  rw [hthread] at hpc hloops hstatus hstep
  have hrun := runSlot_of_ends h (isAlive_of_running hs.running) (.stop hstep)
  have hm : (it.runSlot p slot).interpreter.threads.thread slot = m.thread := by
    rw [hrun, thread_reportOf]
  have hstore : (it.runSlot p slot).interpreter.store = m.store := by rw [hrun, store_reportOf]
  constructor
  · simp only [hrun, result_reportOf, hroom, hs.pc]
  · constructor
    case running => rw [hm, hstatus, hs.running]
    case stuck => rwa [Stuck, hm, hstore]
    case pc => rw [hm, hpc, hs.pc]
    case openLoops =>
      rw [hm, hloops, hs.openLoops]
      split <;> omega

theorem rerun (hs : it.StuckAt p slot position cause opened) (h : it.Reachable fun _ => True)
    (n : Nat) :
    (it.rerun p slot.val n).StuckAt p slot position cause (opened + n) ∧
      (it.rerun p slot.val n).Reachable fun _ => True := by
  induction n with
  | zero => exact ⟨hs, h⟩
  | succ n ih =>
      obtain ⟨hn, hreach⟩ := ih
      rw [rerun_succ, runThread_val]
      exact ⟨(hn.runSlot hreach).2, hreach.runSlot trivial slot⟩

end StuckAt

/-- How a failed run goes on when the same slot is run again and again. -/
structure Retries (p : Program) (number : Nat) (fault : Fault) (failed : Interpreter) : Prop where
  /-- Anywhere but at a switch without a landing nothing changes any more. -/
  steady :
    (∀ (slot : Slot) (cause : Fault), slot.val = number → ¬failed.Stuck p slot cause) →
    failed.runThread p number = { interpreter := failed, result := .error fault } ∧
      ∀ n, failed.rerun p number n = failed
  /-- At a switch without a landing each run opens one more loop as long as there is room. -/
  stuck : ∀ (slot : Slot) (cause : Fault), slot.val = number → failed.Stuck p slot cause → ∀ n,
      ((failed.rerun p number n).runThread p number).result =
        .error (if (failed.threads.thread slot).level.openLoops + n < loopSlots then fault
          else .loopOverflow (failed.threads.thread slot).pc) ∧
      ((failed.rerun p number n).threads.thread slot).level.openLoops =
        min loopSlots ((failed.threads.thread slot).level.openLoops + n)

/-- The fault stays the same, unless a switch without a landing has had room for its loop. -/
theorem Retries.same_iff {failed : Interpreter} (hr : failed.Retries p number fault) :
    (∀ n, ((failed.rerun p number n).runThread p number).result = .error fault) ↔
      ∀ (slot : Slot) (cause : Fault), slot.val = number → failed.Stuck p slot cause →
        fault = .loopOverflow (failed.threads.thread slot).pc := by
  constructor
  · intro hsame slot cause hnumber hs
    have hfull := (hr.stuck slot cause hnumber hs loopSlots).1
    rw [hsame, if_neg (Nat.not_lt.mpr (Nat.le_add_left _ _))] at hfull
    exact Except.error.inj hfull
  · intro hfull n
    by_cases hs : ∃ (slot : Slot) (cause : Fault), slot.val = number ∧ failed.Stuck p slot cause
    · obtain ⟨slot, cause, hnumber, hs⟩ := hs
      rw [(hr.stuck slot cause hnumber hs n).1, ← hfull slot cause hnumber hs, ite_self]
    · obtain ⟨hrun, hfixed⟩ := hr.steady fun slot cause hnumber hs' =>
        hs ⟨slot, cause, hnumber, hs'⟩
      rw [hfixed, hrun]

/-- A run that fails at a switch without a landing leaves the thread at work on it. While there is room for
another loop, the run has failed for the reason of the switch. -/
theorem stuckAt_of_failed (h : it.Reachable fun _ => True)
    (hf : (it.runSlot p slot).result = .error fault)
    (hs : (it.runSlot p slot).interpreter.Stuck p slot cause) :
    (it.runSlot p slot).interpreter.StuckAt p slot
        ((it.runSlot p slot).interpreter.threads.thread slot).pc cause
        ((it.runSlot p slot).interpreter.threads.thread slot).level.openLoops ∧
      (((it.runSlot p slot).interpreter.threads.thread slot).level.openLoops < loopSlots →
        fault = cause) := by
  obtain ⟨last, m, hlast, hstatus, hthread, hstore⟩ := exists_failed_step h hf
  have hwell := (h.runSlot (p := p) trivial slot).all
    (fun p _ => Thread.wellFormed_invariant p) .of_dead slot
  generalize (it.runSlot p slot).interpreter = failed at *
  constructor
  · exact {
      running := hthread ▸ hstatus
      stuck := hs
      pc := rfl
      openLoops := (Nat.min_eq_right (hwell.level _).openLoops).symm }
  · rw [Stuck, hthread, hstore] at hs
    rw [hthread]
    exact Machine.fault_of_stuck hlast hs

/-- There is nothing to run in a slot that the pool does not have. -/
theorem runThread_of_none (h : Pool.slot? number = none) (p : Program) (it : Interpreter) :
    it.runThread p number = { interpreter := it, result := .error (.invalidThread number) } := by
  simp only [runThread, h]

theorem retries_runSlot (h : it.Reachable fun _ => True)
    (hf : (it.runSlot p slot).result = .error fault) :
    (it.runSlot p slot).interpreter.Retries p slot.val fault where
  steady hs := by
    have hrun := runSlot_again h hf fun cause => hs slot cause rfl
    rw [runThread_val]
    exact ⟨hrun, rerun_of_fixed (by rw [runThread_val, hrun])⟩
  stuck slot' cause hnumber hs n := by
    cases Fin.ext hnumber
    obtain ⟨hat, hfault⟩ := stuckAt_of_failed h hf hs
    obtain ⟨hn, hreach⟩ := hat.rerun (h.runSlot trivial slot) n
    rw [runThread_val, (hn.runSlot hreach).1]
    refine ⟨?_, hn.openLoops⟩
    split
    · rename_i hroom
      rw [hfault (Nat.lt_of_le_of_lt (Nat.le_add_right _ _) hroom)]
    · rfl

/-- Whatever programs an interpreter has run before: when a run of a slot fails, further runs of it alone
report the same fault and have no effect, unless the slot holds a thread at a switch without a landing. There
each run opens one more loop, and the fault changes when there is no room for it any more. -/
theorem Reachable.failed_run_again (h : it.Reachable fun _ => True)
    (hf : (it.runThread p number).result = .error fault) :
    let failed := (it.runThread p number).interpreter
    failed.Retries p number fault ∧
      ((∀ n, ((failed.rerun p number n).runThread p number).result = .error fault) ↔
        ∀ (slot : Slot) (cause : Fault), slot.val = number → failed.Stuck p slot cause →
          fault = .loopOverflow (failed.threads.thread slot).pc) := by
  suffices hr : (it.runThread p number).interpreter.Retries p number fault from ⟨hr, hr.same_iff⟩
  cases hslot : Pool.slot? number with
  | some slot =>
      cases Pool.val_of_slot? hslot
      rw [runThread_val] at hf ⊢
      exact retries_runSlot h hf
  | none =>
      have hrun := runThread_of_none hslot p it
      rw [hrun] at hf ⊢
      cases hf
      refine { steady := fun _ => ⟨hrun, rerun_of_fixed (by rw [hrun])⟩, stuck := ?_ }
      intro slot cause hnumber
      rw [← hnumber, Pool.slot?_val] at hslot
      cases hslot

/-- An event whose only switch has the end of the event where its first case should be. -/
def caseless : Program :=
  .ofFunctions [[{ opcode := .switch, operands := [0, 2, 0] }, Line.evtEnd].flatMap Line.encode]

theorem failed_run_again_caseless :
    let it := (({} : Interpreter).serve caseless (.startEvent 0)).interpreter
    let failed := (it.runThread caseless 0).interpreter
    (it.runThread caseless 0).result = .error (.malformedSwitch 4 1) ∧
      failed.Stuck caseless 0 (.malformedSwitch 4 1) ∧
      failed.Retries caseless 0 (.malformedSwitch 4 1) ∧
      ((∀ n, ((failed.rerun caseless 0 n).runThread caseless 0).result =
          .error (.malformedSwitch 4 1)) ↔
        ∀ (slot : Slot) (cause : Fault), slot.val = 0 → failed.Stuck caseless slot cause →
          Fault.malformedSwitch 4 1 = .loopOverflow (failed.threads.thread slot).pc) := by
  intro it failed
  have hit : it.Reachable fun _ => True := .serve (.startEvent 0) trivial .fresh
  have hf : (it.runThread caseless 0).result = .error (.malformedSwitch 4 1) := by decide +kernel
  have hi : caseless.instructionAt (failed.threads.thread 0).pc =
      .ok ⟨.switch, [0, 2, 0], rfl⟩ := by decide +kernel
  have hfind : Landing.find caseless.code (failed.store.var 0)
      ((failed.threads.thread 0).pc + 4) = .error (.malformedSwitch 4 1) := by decide +kernel
  exact ⟨hf, .intro hi rfl hfind, Reachable.failed_run_again hit hf⟩

/-- The fault of a failed run does not stay the same whatever the program is. -/
theorem failed_run_changes_fault :
    ¬∀ (p : Program) (it : Interpreter) (number : Nat) (fault : Fault),
      it.Reachable (fun _ => True) → (it.runThread p number).result = .error fault →
      ∀ n, (((it.runThread p number).interpreter.rerun p number n).runThread p number).result =
        .error fault := by
  intro h
  have hit : (({} : Interpreter).serve caseless (.startEvent 0)).interpreter.Reachable fun _ => True :=
    .serve (.startEvent 0) trivial .fresh
  have hsame := h caseless _ 0 (.malformedSwitch 4 1) hit (by decide +kernel) 3
  have hfull : ((((({} : Interpreter).serve caseless (.startEvent 0)).interpreter.runThread
      caseless 0).interpreter.rerun caseless 0 3).runThread caseless 0).result =
        .error (.loopOverflow 0) := by decide +kernel
  rw [hfull] at hsame
  cases hsame

end Interpreter

end RoomScript
