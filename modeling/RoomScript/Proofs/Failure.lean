import RoomScript.Proofs.Retry

/-!
# What an instruction that fails leaves behind

By the time an instruction fails it has called nothing in the world, touched no other thread and written
nothing into the store; it may have read cells that were never used before. Its thread is what it was in front
of the instruction. Only a switch that walks through its headers and finds no landing has changed something
already: its loop slot is open. Whatever the instructions before it have done in the same run stays done.
-/
namespace RoomScript

/-- What reading makes of a store. A cell that is used for the first time holds what every cell of an empty
store holds. -/
structure Store.ReadsTo (s s' : Store) : Prop where
  agree : ∀ c, s'.Agree s c
  kept : ∀ c, s.Touched c → s'.Touched c
  created : ∀ c, s'.Touched c → ¬s.Touched c → s'.Agree {} c

namespace Store

variable {s : Store} {c : Cell} {as : List Access}

/-- A cell that was never used holds a clear flag or zero. -/
theorem agree_of_not_touched (h : ¬s.Touched c) : s.Agree {} c := by
  cases c with
  | flag array bit =>
      simp [Agree, flag, Std.ExtTreeMap.getD_eq_fallback h]
  | var id =>
      simp [Agree, var, Std.ExtTreeMap.getD_eq_fallback h]

theorem ReadsTo.of_accesses (h : ∀ a ∈ as, ¬a.writes) : s.ReadsTo (as.foldl access s) := by
  have hagree : ∀ c, (as.foldl access s).Agree s c :=
    fun c => agree_foldl_access fun a ha hw => absurd hw (h a ha)
  exact {
    agree := hagree
    kept := fun c hc => (touched_foldl_access s as c).mpr (.inr hc)
    created := fun c _ hc => (hagree c).trans (agree_of_not_touched hc) }

theorem ReadsTo.refl (s : Store) : s.ReadsTo s := .of_accesses (List.forall_mem_nil _)

theorem ReadsTo.touchVar (s : Store) (id : UInt8) : s.ReadsTo (s.touchVar id) := by
  have hreads : ∀ a ∈ [Access.readVar id], ¬a.writes := by simp [Access.writes]
  exact .of_accesses hreads

end Store

/-- What a thread is behind an instruction of its own that has failed. -/
inductive Thread.FailsTo (p : Program) (s : Store) (t : Thread) (fault : Fault) : Thread → Prop
  /-- Anywhere but at a switch without a landing, or when there was no room for the slot of the switch. -/
  | same : (∀ cause, t.Stuck p s cause → loopSlots ≤ t.level.openLoops) → FailsTo p s t fault t
  /-- A switch without a landing has opened its slot. -/
  | opened {i : Instruction} {id : UInt8} {length : UInt16} {level : CallLevel} :
      p.instructionAt t.pc = .ok i → Command.ofInstruction i = .switch id length →
      Landing.find p.code (s.var id) (t.pc + i.width) = .error fault →
      t.level.PushesLoop (t.level.slot 0 (t.pc + i.width) (t.pc + i.width + length.toNat)) level →
      FailsTo p s t fault (t.within t.pc level)

/-- A thread stands at a switch or is not at one without a landing. -/
theorem Thread.not_stuck {t : Thread} {s : Store} {i : Instruction}
    (hi : p.instructionAt t.pc = .ok i)
    (hc : ∀ id length, Command.ofInstruction i ≠ .switch id length) (cause : Fault) :
    ¬t.Stuck p s cause := by
  rintro ⟨hi', hc', _⟩
  rw [hi] at hi'
  cases hi'
  exact hc _ _ hc'

/-- What a machine is behind an instruction that has failed. -/
structure Machine.FailsTo (p : Program) (m : Machine) (fault : Fault) (m' : Machine) : Prop where
  calls : m'.calls = m.calls
  pool : m'.pool = m.pool
  store : m.store.ReadsTo m'.store
  thread : m.thread.FailsTo p m.store fault m'.thread

namespace Machine

variable {p : Program} {slot : Slot} {m m' : Machine} {i : Instruction} {fault : Fault}

/-- A fault in front of any effect. -/
theorem FailsTo.refl (hs : ∀ cause, ¬m.thread.Stuck p m.store cause) : m.FailsTo p fault m where
  calls := rfl
  pool := rfl
  store := .refl _
  thread := .same fun cause hstuck => absurd hstuck (hs cause)

/-- A data command has read what it computes with before it fails. -/
theorem failsTo_data {c : DataCommand} (hi : p.instructionAt m.thread.pc = .ok i)
    (hc : Command.ofInstruction i = .data c) (h : m.step p slot = .stopped m' (.error fault)) :
    m.FailsTo p fault m' := by
  rw [step_data hi hc] at h
  obtain ⟨hn, rfl, _⟩ := settle_again h
  have hs : m.store.ReadsTo (c.run m.thread.pc m.store).1 := by
    rw [c.run_fst]
    exact .of_accesses (DataCommand.reads_of_run hn)
  exact {
    calls := rfl
    pool := rfl
    store := hs
    thread := .same fun cause hstuck =>
      absurd hstuck (Thread.not_stuck hi (by simp [hc]) cause) }

theorem failsTo_switch {id : UInt8} {length : UInt16} (hi : p.instructionAt m.thread.pc = .ok i)
    (hc : Command.ofInstruction i = .switch id length)
    (h : m.step p slot = .stopped m' (.error fault)) : m.FailsTo p fault m' := by
  rcases fault_switch hi hc h with ⟨hl, rfl, rfl⟩ | ⟨level, hl, hf, rfl⟩
  · exact {
      calls := rfl
      pool := rfl
      store := .touchVar _ id
      thread := .same fun _ _ => CallLevel.full_of_pushLoop? hl }
  · exact {
      calls := rfl
      pool := rfl
      store := .touchVar _ id
      thread := .opened hi hc hf (CallLevel.pushesLoop hl) }

/-- What an instruction that fails leaves behind, whatever it is and wherever the thread stands. -/
theorem failsTo_of_stopped (h : m.step p slot = .stopped m' (.error fault)) :
    m.FailsTo p fault m' := by
  cases hi : p.instructionAt m.thread.pc with
  | error cause =>
      have hs : ∀ cause, ¬m.thread.Stuck p m.store cause := by
        rintro _ ⟨hi', _, _⟩
        rw [hi] at hi'
        cases hi'
      cases cause with
      | unknownOpcode byte =>
          rw [step_unknown hi] at h
          cases h
      | _ =>
          rw [step_undecodable hi (by simp)] at h
          cases h
          exact .refl hs
  | ok i =>
      cases hc : Command.ofInstruction i with
      | flow c =>
          obtain ⟨rfl, _⟩ := fault_flow hi hc h
          exact .refl (Thread.not_stuck hi (by simp [hc]))
      | data c => exact failsTo_data hi hc h
      | event c =>
          obtain ⟨rfl, _⟩ := fault_event hi hc h
          exact .refl (Thread.not_stuck hi (by simp [hc]))
      | switch id length => exact failsTo_switch hi hc h
      | world i' =>
          rw [step_world hi hc] at h
          cases h

end Machine

namespace Interpreter

/-- What is left of a run that has failed, told by the machine in front of the instruction that failed. -/
structure Keeps (last : Machine) (p : Program) (slot : Slot) (fault : Fault)
    (report : Report Outcome) : Prop where
  calls : report.calls = last.calls
  others : ∀ k, k ≠ slot → report.interpreter.threads.thread k = last.pool.thread k
  store : last.store.ReadsTo report.interpreter.store
  own : last.thread.FailsTo p last.store fault (report.interpreter.threads.thread slot)

variable {p : Program} {it : Interpreter} {slot : Slot} {fault : Fault}

theorem Keeps.of_failsTo {last m : Machine} (h : last.FailsTo p fault m) :
    Keeps last p slot fault (reportOf slot (m, .error fault)) where
  calls := h.calls
  others k hk := by
    rw [threads_reportOf, Pool.thread_put_of_ne hk.symm, h.pool]
  store := h.store
  own := by
    rw [thread_reportOf]
    exact h.thread

/-- Whatever a machine is, and whatever programs an interpreter has run before: an instruction that fails has
done nothing but read, a switch without a landing apart, and a run that fails keeps all that the instructions in
front of the failing one have done. -/
theorem failure_framed (p : Program) (slot : Slot) :
    (∀ (m m' : Machine) (fault : Fault), m.step p slot = .stopped m' (.error fault) →
      m.FailsTo p fault m') ∧
    ∀ it : Interpreter, it.Reachable (fun _ => True) →
      ∀ fault, (it.runThread p slot.val).result = .error fault →
        ∃ n last m', Machine.Steps p slot n (it.machine slot) last ∧
          last.step p slot = .stopped m' (.error fault) ∧
          Keeps last p slot fault (it.runThread p slot.val) := by
  refine ⟨fun m m' fault h => Machine.failsTo_of_stopped h, fun it h fault hf => ?_⟩
  rw [runThread_val] at hf ⊢
  by_cases ha : (it.threads.thread slot).isAlive
  · obtain ⟨n, m, result, _, hends⟩ := exists_ends h p ha
    rw [runSlot_of_ends h ha hends] at hf ⊢
    cases hf
    obtain ⟨k, last, _, hsteps, hlast⟩ := hends.split
    exact ⟨k, last, m, hsteps, hlast, .of_failsTo (Machine.failsTo_of_stopped hlast)⟩
  · rw [runSlot_of_dead ha] at hf
    cases hf

/-- An event that uses the store, the pool and the world before it comes to a switch without a case. -/
def unfinished : Program :=
  .ofFunctions [[Line.save 3 7, .evtExec anySlot 1, .cutChg 2,
      { opcode := .switch, operands := [9, 2, 0] }, .evtEnd].flatMap Line.encode,
    (Line.sleep 5).flatMap Line.encode]

theorem failure_framed_unfinished :
    let it := (({} : Interpreter).serve unfinished (.startEvent 0)).interpreter
    let report := it.runThread unfinished 0
    let fault := Fault.malformedSwitch 14 1
    report.result = .error fault ∧ report.calls = #[.camera 2] ∧
      report.interpreter.store.var 3 = 7 ∧ report.interpreter.store.touchedVars = 2 ∧
      report.interpreter.threads.thread 1 = Thread.start 16 1 ∧
      (report.interpreter.threads.thread 0).level.loopList = [⟨0, 16, 0, 14⟩] ∧
      (∀ (m m' : Machine) (fault : Fault), m.step unfinished 0 = .stopped m' (.error fault) →
        m.FailsTo unfinished fault m') ∧
      ∃ n last m', Machine.Steps unfinished 0 n (it.machine 0) last ∧
        last.step unfinished 0 = .stopped m' (.error fault) ∧
        Keeps last unfinished 0 fault report := by
  intro it report fault
  have hit : it.Reachable fun _ => True := .serve (.startEvent 0) trivial .fresh
  have hf : report.result = .error fault := by decide +kernel
  obtain ⟨hstep, hrun⟩ := failure_framed unfinished 0
  refine ⟨hf, ?_, ?_, ?_, ?_, ?_, hstep, hrun it hit fault hf⟩
  all_goals decide +kernel

end Interpreter

end RoomScript
