import RoomScript.Proofs.Dispatch.Access

/-!
# An iteration that fails, carried out again

A thread that fails stays on its instruction, and its next run begins there. All that the instruction has
done by then is to mark cells of the store as used. So any machine with the thread and the store that the
failed iteration has left fails at once with the same fault and stays as it is. A switch is the exception: it
opens its loop slot before it looks for its landing and keeps it open when there is none, so each further
attempt opens one more, until the level has no room for it.
-/
namespace RoomScript

/-- An operation without a value writes nothing. -/
theorem Store.accesses_of_calculate {s : Store} {position : Nat} {op : CalcOp} {id : UInt8}
    {rhs : Int16} (h : (s.calculate position op id rhs).2 ≠ .ok .proceed) :
    s.calculateAccesses op id rhs = [.readVar id] := by
  simp only [calculate, readVar] at h
  cases hv : op.eval? (s.var id) rhs with
  | none => simp [calculateAccesses, hv]
  | some value => simp [hv] at h

namespace DataCommand

variable {c : DataCommand} {position : Nat} {s : Store}

/-- A data command that does not let the thread go on writes no cell. -/
theorem reads_of_run (h : (c.run position s).2 ≠ .ok .proceed) : ∀ a ∈ c.accesses s, ¬a.writes := by
  cases c with
  | checkBit array bit expected => simp [accesses, Access.writes]
  | setBit array bit op =>
      rcases op with _ | op
      · exact absurd rfl h
      · cases op <;> exact absurd rfl h
  | compare id op value => cases op <;> simp [accesses, Access.writes]
  | save id value => exact absurd rfl h
  | copy target source => exact absurd rfl h
  | calculate op id value =>
      cases op with
      | none => exact absurd rfl h
      | some op =>
          have hread := Store.accesses_of_calculate h
          simp [accesses, hread, Access.writes]
  | calculateFrom op id source =>
      cases op with
      | none => exact absurd rfl h
      | some op =>
          have hread : (s.touchVar source).calculateAccesses op id (s.var source) = [.readVar id] :=
            Store.accesses_of_calculate h
          simp only [Store.calculateAccesses, Store.var_touchVar] at hread
          simp [accesses, Store.calculateAccesses, hread, Access.writes]

/-- A data command that does not let the thread go on can be carried out again. -/
theorem run_again (h : (c.run position s).2 ≠ .ok .proceed) :
    c.run position (c.run position s).1 = c.run position s := by
  have hreads := reads_of_run h
  have hagree : ∀ a ∈ c.accesses s, s.Agree (c.run position s).1 a.cell := by
    intro a _
    rw [run_fst]
    exact (Store.agree_foldl_access fun b hb hw => absurd hw (hreads b hb)).symm
  obtain ⟨haccesses, hresult⟩ := c.run_congr position hagree
  refine Prod.ext ?_ hresult
  rw [run_fst c position (c.run position s).1, haccesses, run_fst, Store.foldl_access_again _ hreads]

end DataCommand

/-- A thread stands at a switch that ends in a fault instead of a landing. -/
inductive Thread.Stuck (p : Program) (s : Store) (t : Thread) (fault : Fault) : Prop
  | intro {i : Instruction} {id : UInt8} {length : UInt16} :
      p.instructionAt t.pc = .ok i → Command.ofInstruction i = .switch id length →
      Landing.find p.code (s.var id) (t.pc + i.width) = .error fault → Stuck p s t fault

namespace Machine

variable {p : Program} {slot : Slot} {m m' : Machine} {i : Instruction} {fault : Fault}

/-- Whatever machine has the thread and the store of this one fails in its next iteration and stays as it
is. -/
def FailsAgain (p : Program) (slot : Slot) (m : Machine) (fault : Fault) : Prop :=
  ∀ r : Machine, r.thread = m.thread → r.store = m.store → r.step p slot = .stopped r (.error fault)

theorem again_undecodable {cause : DecodeError} (hi : p.instructionAt m.thread.pc = .error cause)
    (hc : ∀ byte, cause ≠ .unknownOpcode byte)
    (h : m.step p slot = .stopped m' (.error fault)) : m'.FailsAgain p slot fault := by
  rw [step_undecodable hi hc] at h
  cases h
  intro r ht _
  rw [← ht] at hi
  rw [step_undecodable hi hc, ht]

/-- A flow command that fails changes nothing. -/
theorem fault_flow {c : FlowCommand} (hi : p.instructionAt m.thread.pc = .ok i)
    (hc : Command.ofInstruction i = .flow c) (h : m.step p slot = .stopped m' (.error fault)) :
    m' = m ∧ c.run p m.thread.pc { m.thread with pc := m.thread.pc + i.width } = .error fault := by
  rw [step_flow hi hc] at h
  cases hr : c.run p m.thread.pc { m.thread with pc := m.thread.pc + i.width } with
  | ok ran =>
      obtain ⟨t', signal⟩ := ran
      rw [hr] at h
      rcases follows_flow_signal hi hc hr with ⟨rfl, _⟩ | rfl | ⟨rfl, _⟩ <;> cases h
  | error =>
      rw [hr] at h
      cases h
      exact ⟨rfl, rfl⟩

theorem again_flow {c : FlowCommand} (hi : p.instructionAt m.thread.pc = .ok i)
    (hc : Command.ofInstruction i = .flow c) (h : m.step p slot = .stopped m' (.error fault)) :
    m'.FailsAgain p slot fault := by
  obtain ⟨rfl, hr⟩ := fault_flow hi hc h
  intro r ht _
  rw [← ht] at hi hr
  rw [step_flow hi hc, hr]

/-- An event command that fails changes nothing. -/
theorem fault_event {c : EventCommand} (hi : p.instructionAt m.thread.pc = .ok i)
    (hc : Command.ofInstruction i = .event c) (h : m.step p slot = .stopped m' (.error fault)) :
    m' = m ∧ c.run p slot m.pool = .error fault := by
  rw [step_event hi hc] at h
  cases hr : c.run p slot m.pool with
  | ok ran =>
      obtain ⟨pool, signal⟩ := ran
      rw [hr] at h
      rcases c.signal_of_run hr with rfl | rfl <;> cases h
  | error =>
      rw [hr] at h
      cases h
      exact ⟨rfl, rfl⟩

theorem again_event {c : EventCommand} (hi : p.instructionAt m.thread.pc = .ok i)
    (hc : Command.ofInstruction i = .event c) (h : m.step p slot = .stopped m' (.error fault)) :
    m'.FailsAgain p slot fault := by
  obtain ⟨rfl, hr⟩ := fault_event hi hc h
  -- An event that is not there is missed in any pool.
  obtain ⟨requested, event, rfl, hentry, rfl⟩ := EventCommand.fault_of_run hr
  intro r ht _
  rw [← ht] at hi
  rw [step_event hi hc]
  simp only [EventCommand.run, hentry]

/-- An instruction whose outcome is a fault leaves the thread where it was, and whether its outcome is one is
told by the call level. -/
theorem settle_again {position : Nat} {result : Except Fault Signal}
    (h : m.settle position result = .stopped m' (.error fault)) :
    result ≠ .ok .proceed ∧ m' = m.goto position ∧
      ∀ r : Machine, r.thread.level = m.thread.level →
        r.settle position result = .stopped (r.goto position) (.error fault) := by
  cases result with
  | error =>
      cases h
      exact ⟨by simp, rfl, fun _ _ => rfl⟩
  | ok signal =>
      cases signal with
      | conditionFalse =>
          simp only [settle, unwind] at h ⊢
          split at h
          · cases h
          · rename_i ho
            split at h <;> cases h
            rename_i hb
            refine ⟨by simp, rfl, fun r hr => ?_⟩
            simp only [hr, ho, hb, if_false]
      | _ => cases h

theorem again_data {c : DataCommand} (hi : p.instructionAt m.thread.pc = .ok i)
    (hc : Command.ofInstruction i = .data c) (h : m.step p slot = .stopped m' (.error fault)) :
    m'.FailsAgain p slot fault := by
  rw [step_data hi hc] at h
  obtain ⟨hn, rfl, hagain⟩ := settle_again h
  intro r ht hs
  have ht : r.thread = m.thread := ht
  have hs : r.store = (c.run m.thread.pc m.store).1 := hs
  rw [← ht] at hi
  have hl : r.thread.level = m.thread.level := congrArg Thread.level ht
  have hfault := hagain { r.goto (m.thread.pc + i.width) with store := r.store } hl
  rw [step_data hi hc, ht, hs, DataCommand.run_again hn, ← hs, hfault, ← ht]
  rfl

/-- A switch fails for want of room or for want of a landing. By then it has read its variable and, in the
second case, opened its slot. -/
theorem fault_switch {id : UInt8} {length : UInt16} (hi : p.instructionAt m.thread.pc = .ok i)
    (hc : Command.ofInstruction i = .switch id length)
    (h : m.step p slot = .stopped m' (.error fault)) :
    (m.thread.level.pushLoop? (m.thread.level.slot 0 (m.thread.pc + i.width)
          (m.thread.pc + i.width + length.toNat)) = none ∧
        fault = .loopOverflow m.thread.pc ∧ m' = { m with store := m.store.touchVar id }) ∨
      ∃ level, m.thread.level.pushLoop? (m.thread.level.slot 0 (m.thread.pc + i.width)
          (m.thread.pc + i.width + length.toNat)) = some level ∧
        Landing.find p.code (m.store.var id) (m.thread.pc + i.width) = .error fault ∧
        m' = { m with
          thread := m.thread.within m.thread.pc level, store := m.store.touchVar id } := by
  have hswitch := takesSwitch slot hi hc
  rw [h] at hswitch
  cases hswitch with
  | full hl => exact .inl ⟨hl, rfl, rfl⟩
  | stuck hl hf => exact .inr ⟨_, hl, hf, rfl⟩

/-- A switch that would find its landing and fails has found no room for its loop slot. -/
theorem again_switch {id : UInt8} {length : UInt16} (hi : p.instructionAt m.thread.pc = .ok i)
    (hc : Command.ofInstruction i = .switch id length)
    (h : m.step p slot = .stopped m' (.error fault))
    (hs : ∀ cause, ¬m.thread.Stuck p m.store cause) : m'.FailsAgain p slot fault := by
  rcases fault_switch hi hc h with ⟨hl, rfl, rfl⟩ | ⟨_, _, hf, _⟩
  · have htouch : (m.store.touchVar id).touchVar id = m.store.touchVar id :=
      Store.foldl_access_again [.readVar id] (by simp [Access.writes])
    intro r ht hs
    have ht : r.thread = m.thread := ht
    have hs : r.store = m.store.touchVar id := hs
    rw [← ht] at hi hl
    rw [step_switch_of_full hi hc hl, hs, htouch, ← hs, ht, ← ht]
  · exact absurd (.intro hi hc hf) (hs fault)

/-- A thread that fails anywhere but at a switch without a landing fails there again and again. -/
theorem step_fault_again (h : m.step p slot = .stopped m' (.error fault))
    (hs : ∀ cause, ¬m.thread.Stuck p m.store cause) : m'.FailsAgain p slot fault := by
  cases hi : p.instructionAt m.thread.pc with
  | error cause =>
      cases cause with
      | unknownOpcode byte =>
          rw [step_unknown hi] at h
          cases h
      | _ => exact again_undecodable hi (by simp) h
  | ok i =>
      cases hc : Command.ofInstruction i with
      | flow c => exact again_flow hi hc h
      | data c => exact again_data hi hc h
      | event c => exact again_event hi hc h
      | switch id length => exact again_switch hi hc h hs
      | world i' =>
          rw [step_world hi hc] at h
          cases h

/-- Each attempt at a switch without a landing opens a loop slot, as long as there is room. -/
theorem step_stuck {cause : Fault} (h : m.thread.Stuck p m.store cause) (slot : Slot) :
    ∃ m', m.step p slot = .stopped m'
        (.error (if m.thread.level.openLoops < loopSlots then cause
          else .loopOverflow m.thread.pc)) ∧
      m'.thread.Stuck p m'.store cause ∧ m'.thread.pc = m.thread.pc ∧
      m'.thread.level.openLoops =
        if m.thread.level.openLoops < loopSlots then m.thread.level.openLoops + 1
        else m.thread.level.openLoops := by
  obtain ⟨hi, hc, hf⟩ := h
  rename_i i id length
  have hstuck (t : Thread) (ht : t.pc = m.thread.pc) :
      t.Stuck p (m.store.touchVar id) cause := by
    rw [← ht] at hi hf
    exact .intro hi hc (by rwa [Store.var_touchVar])
  by_cases hroom : m.thread.level.openLoops < loopSlots
  · obtain ⟨level, hl⟩ := CallLevel.exists_pushLoop? hroom
      (m.thread.level.slot 0 (m.thread.pc + i.width) (m.thread.pc + i.width + length.toNat))
    rw [step_switch_of_stuck hi hc hl hf, if_pos hroom, if_pos hroom]
    refine ⟨_, rfl, hstuck _ rfl, rfl, ?_⟩
    rw [← (CallLevel.pushesLoop hl).openLoops]
    exact congrArg CallLevel.openLoops (m.thread.level_within m.thread.pc level)
  · have hl : m.thread.level.pushLoop? (m.thread.level.slot 0 (m.thread.pc + i.width)
        (m.thread.pc + i.width + length.toNat)) = none :=
      CallLevel.pushLoop?_eq_none (Nat.not_lt.mp hroom)
    rw [step_switch_of_full hi hc hl, if_neg hroom, if_neg hroom]
    exact ⟨_, rfl, hstuck _ rfl, rfl, rfl⟩

end Machine

end RoomScript
