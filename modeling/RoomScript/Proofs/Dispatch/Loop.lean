import RoomScript.Dispatch.Run

/-!
# The dispatch loop without a budget

A run of the dispatch loop is a chain of steps up to one that stops. `Steps` is such a chain before its
end and `Ends` a whole one, with the number of its iterations; neither knows a budget. A run with a
budget that is large enough, and a run with a budget that was not used up, are the same thing as `Ends`.
Below them stand the equations of a single step, one for each kind of command.
-/
namespace RoomScript

namespace Machine

variable {p : Program} {slot : Slot}

/-- Iterations that all go on. -/
inductive Steps (p : Program) (slot : Slot) : Nat → Machine → Machine → Prop
  | refl (m : Machine) : Steps p slot 0 m m
  | step {n : Nat} {m₁ m₂ m₃ : Machine} :
      m₁.step p slot = .running m₂ → Steps p slot n m₂ m₃ → Steps p slot (n + 1) m₁ m₃

/-- A whole run of the loop, the iteration that stops included. -/
inductive Ends (p : Program) (slot : Slot) :
    Nat → Machine → Machine → Except Fault Outcome → Prop
  | stop {m m' : Machine} {result : Except Fault Outcome} :
      m.step p slot = .stopped m' result → Ends p slot 1 m m' result
  | step {n : Nat} {m₁ m₂ m₃ : Machine} {result : Except Fault Outcome} :
      m₁.step p slot = .running m₂ → Ends p slot n m₂ m₃ result →
      Ends p slot (n + 1) m₁ m₃ result

theorem Steps.single {m m' : Machine} (h : m.step p slot = .running m') : Steps p slot 1 m m' :=
  .step h (.refl m')

theorem Steps.trans {n k : Nat} {m₁ m₂ m₃ : Machine} (h : Steps p slot n m₁ m₂)
    (k' : Steps p slot k m₂ m₃) : Steps p slot (n + k) m₁ m₃ := by
  induction h with
  | refl m => simpa only [Nat.zero_add] using k'
  | step hs _ ih =>
      simpa only [Nat.add_right_comm] using Steps.step hs (ih k')

theorem Steps.ends {n k : Nat} {m₁ m₂ m₃ : Machine} {result : Except Fault Outcome}
    (h : Steps p slot n m₁ m₂) (k' : Ends p slot k m₂ m₃ result) :
    Ends p slot (n + k) m₁ m₃ result := by
  induction h with
  | refl m => simpa only [Nat.zero_add] using k'
  | step hs _ ih =>
      simpa only [Nat.add_right_comm] using Ends.step hs (ih k')

/-- What is kept by every iteration that goes on is kept along the run. -/
theorem Steps.keeps {I : Machine → Prop}
    (hI : ∀ m m', I m → m.step p slot = .running m' → I m') {n : Nat} {m m' : Machine}
    (h : Steps p slot n m m') (hm : I m) : I m' := by
  induction h with
  | refl => exact hm
  | step hs _ ih => exact ih (hI _ _ hm hs)

/-- A run ends by one last iteration that stops. -/
theorem Ends.split {n : Nat} {m m' : Machine} {result : Except Fault Outcome}
    (h : Ends p slot n m m' result) :
    ∃ k last, n = k + 1 ∧ Steps p slot k m last ∧ last.step p slot = .stopped m' result := by
  induction h with
  | stop hs => exact ⟨0, _, rfl, .refl _, hs⟩
  | step hs _ ih =>
      obtain ⟨k, last, rfl, hsteps, hlast⟩ := ih
      exact ⟨k + 1, last, rfl, .step hs hsteps, hlast⟩

/-- A budget that covers a run does not change it. -/
theorem Ends.runFor {n budget : Nat} {m m' : Machine} {result : Except Fault Outcome}
    (h : Ends p slot n m m' result) (hb : n ≤ budget) :
    m.runFor p slot budget = (m', result) := by
  induction h generalizing budget with
  | stop hs =>
      obtain ⟨b, rfl⟩ := Nat.exists_eq_add_of_le' hb
      exact runFor_of_stopped hs
  | step hs _ ih =>
      obtain ⟨b, rfl⟩ := Nat.exists_eq_add_of_le' (Nat.le_of_add_left_le hb)
      rw [runFor_of_running hs]
      exact ih (by omega)

/-- A budget that was not used up covers a whole run. -/
theorem ends_of_runFor {budget : Nat} {m : Machine}
    (h : (m.runFor p slot budget).2 ≠ .ok .exhausted) :
    ∃ n, Ends p slot n m (m.runFor p slot budget).1 (m.runFor p slot budget).2 := by
  induction budget generalizing m with
  | zero => exact absurd rfl h
  | succ budget ih =>
      cases hs : m.step p slot with
      | running next =>
          rw [runFor_of_running hs] at h ⊢
          obtain ⟨n, hends⟩ := ih h
          exact ⟨n + 1, .step hs hends⟩
      | stopped last result =>
          rw [runFor_of_stopped hs]
          exact ⟨1, .stop hs⟩

/-- A run is the only one from where it starts. -/
theorem Ends.unique {n k : Nat} {m m₁ m₂ : Machine} {r₁ r₂ : Except Fault Outcome}
    (h : Ends p slot n m m₁ r₁) (h' : Ends p slot k m m₂ r₂) : m₁ = m₂ ∧ r₁ = r₂ := by
  have h₁ := h.runFor (Nat.le_max_left n k)
  have h₂ := h'.runFor (Nat.le_max_right n k)
  exact Prod.mk.inj (h₁.symm.trans h₂)

section Equations

variable {m : Machine} {i : Instruction}

theorem step_unknown {byte : UInt8}
    (h : p.instructionAt m.thread.pc = .error (.unknownOpcode byte)) :
    m.step p slot = .running (m.goto (m.thread.pc + 1)) := by
  simp only [step, h]

theorem step_undecodable {cause : DecodeError} (h : p.instructionAt m.thread.pc = .error cause)
    (hc : ∀ byte, cause ≠ .unknownOpcode byte) :
    m.step p slot = .stopped m (.error (.decode m.thread.pc cause)) := by
  cases cause <;> simp_all [step]

theorem step_instruction (h : p.instructionAt m.thread.pc = .ok i) :
    m.step p slot =
      ((m.goto (m.thread.pc + i.width)).execute p slot m.thread.pc (.ofInstruction i)).1.settle
        m.thread.pc
        ((m.goto (m.thread.pc + i.width)).execute p slot m.thread.pc (.ofInstruction i)).2 := by
  simp only [step, h]

theorem step_flow {c : FlowCommand} (h : p.instructionAt m.thread.pc = .ok i)
    (hc : Command.ofInstruction i = .flow c) :
    m.step p slot =
      match c.run p m.thread.pc { m.thread with pc := m.thread.pc + i.width } with
      | .ok (thread, signal) => { m with thread }.settle m.thread.pc (.ok signal)
      | .error fault => .stopped m (.error fault) := by
  rw [step_instruction h, hc]
  simp only [execute, goto]
  rcases c.run p m.thread.pc _ with fault | ⟨thread, signal⟩ <;> rfl

theorem step_data {c : DataCommand} (h : p.instructionAt m.thread.pc = .ok i)
    (hc : Command.ofInstruction i = .data c) :
    m.step p slot =
      { m.goto (m.thread.pc + i.width) with store := (c.run m.thread.pc m.store).1 }.settle
        m.thread.pc (c.run m.thread.pc m.store).2 := by
  rw [step_instruction h, hc]
  rfl

theorem step_event {c : EventCommand} (h : p.instructionAt m.thread.pc = .ok i)
    (hc : Command.ofInstruction i = .event c) :
    m.step p slot =
      match c.run p slot m.pool with
      | .ok (pool, signal) =>
        { m.goto (m.thread.pc + i.width) with pool }.settle m.thread.pc (.ok signal)
      | .error fault => .stopped m (.error fault) := by
  rw [step_instruction h, hc]
  simp only [execute, goto]
  rcases c.run p slot m.pool with fault | ⟨pool, signal⟩ <;> rfl

theorem step_switch {id : UInt8} {length : UInt16} (h : p.instructionAt m.thread.pc = .ok i)
    (hc : Command.ofInstruction i = .switch id length) :
    m.step p slot =
      match Thread.switch { m.thread with pc := m.thread.pc + i.width } p.code m.thread.pc
        (m.store.var id) length with
      | (thread, .ok ()) => .running { m with thread, store := m.store.touchVar id }
      | (thread, .error fault) =>
        .stopped ({ m with thread, store := m.store.touchVar id }.goto m.thread.pc)
          (.error fault) := by
  rw [step_instruction h, hc]
  simp only [execute, goto, Store.readVar]
  rcases Thread.switch _ p.code m.thread.pc (m.store.var id) length with ⟨thread, _ | _⟩ <;> rfl

theorem step_world {i' : Instruction} (h : p.instructionAt m.thread.pc = .ok i)
    (hc : Command.ofInstruction i = .world i') :
    m.step p slot =
      .running { m.goto (m.thread.pc + i.width) with
        calls := (WorldCall.ofInstruction? m.thread.work i').elim m.calls m.calls.push } := by
  rw [step_instruction h, hc]
  simp only [execute, goto]
  split <;> simp_all [settle]

end Equations

end Machine

end RoomScript
