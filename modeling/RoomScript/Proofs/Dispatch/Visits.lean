import RoomScript.Proofs.Termination

/-!
# What a run goes through

The machines in front of the iterations of a run, first to last, the last one being the machine in front of
the iteration that stops. All that a run does is told by them: the commands it carries out, and its effects
on other slots. For an interpreter that a session reaches they are all machines to which the iterations of
the run lead, since no run uses up its budget.
-/
namespace RoomScript

namespace Machine

variable {p : Program} {slot : Slot} {m m' : Machine} {budget : Nat}

/-- The command that the thread is about to carry out, if it stands at an instruction. -/
def command? (p : Program) (m : Machine) : Option Command :=
  match p.instructionAt m.thread.pc with
  | .error _ => none
  | .ok i => some (Command.ofInstruction i)

theorem command?_of_instruction {i : Instruction} (h : p.instructionAt m.thread.pc = .ok i) :
    m.command? p = some (Command.ofInstruction i) := by
  simp only [command?, h]

theorem instruction_of_command? {c : Command} (h : m.command? p = some c) :
    ∃ i, p.instructionAt m.thread.pc = .ok i ∧ Command.ofInstruction i = c := by
  unfold command? at h
  split at h
  · cases h
  · exact ⟨_, ‹_›, Option.some.inj h⟩

theorem effect?_of_command? {c : EventCommand} (h : m.command? p = some (.event c)) :
    m.effect? p slot = c.effect? p slot m.pool := by
  obtain ⟨i, hi, hc⟩ := instruction_of_command? h
  simp only [effect?, hi, hc]

theorem command?_of_effect? {e : Effect} (h : m.effect? p slot = some e) :
    ∃ c : EventCommand, m.command? p = some (.event c) ∧ c.effect? p slot m.pool = some e := by
  obtain ⟨i, c, hi, hc, he⟩ := effect?_eq_some h
  exact ⟨c, hc ▸ command?_of_instruction hi, he⟩

/-- The machines in front of the iterations of a run. -/
def visits (p : Program) (slot : Slot) : (budget : Nat) → Machine → List Machine
  | 0, _ => []
  | budget + 1, m =>
    m :: match m.step p slot with
      | .running m' => visits p slot budget m'
      | .stopped _ _ => []

theorem visits_of_running (h : m.step p slot = .running m') :
    m.visits p slot (budget + 1) = m :: m'.visits p slot budget := by
  simp only [visits, h]

theorem visits_of_stopped {result : Except Fault Outcome}
    (h : m.step p slot = .stopped m' result) : m.visits p slot (budget + 1) = [m] := by
  simp only [visits, h]

/-- A machine in front of an iteration is one to which the iterations before it lead. -/
theorem steps_of_mem_visits (h : m' ∈ m.visits p slot budget) : ∃ n, Steps p slot n m m' := by
  induction budget generalizing m with
  | zero => cases h
  | succ budget ih =>
      rw [visits] at h
      rcases List.mem_cons.mp h with rfl | h
      · exact ⟨0, .refl _⟩
      · split at h
        · rename_i next hs
          obtain ⟨n, hsteps⟩ := ih h
          exact ⟨n + 1, .step hs hsteps⟩
        · cases h

theorem mem_visits_of_steps {n : Nat} (h : Steps p slot n m m') (hn : n < budget) :
    m' ∈ m.visits p slot budget := by
  induction h generalizing budget with
  | refl m =>
      obtain ⟨b, rfl⟩ := Nat.exists_eq_add_of_lt hn
      exact List.mem_cons_self
  | step hs _ ih =>
      obtain ⟨b, rfl⟩ := Nat.exists_eq_add_of_le' (Nat.zero_lt_of_lt hn)
      rw [visits_of_running hs]
      exact List.mem_cons_of_mem _ (ih (Nat.lt_of_succ_lt_succ hn))

/-- A run that stops after some iterations has no more iterations than these in front of the last one. -/
theorem Ends.lt_of_steps {n k : Nat} {last : Machine} {result : Except Fault Outcome}
    (h : Ends p slot n m last result) (hs : Steps p slot k m m') : k < n := by
  induction hs generalizing n with
  | refl m => cases h <;> exact Nat.succ_pos _
  | step hstep _ ih =>
      cases h with
      | stop hstop =>
          rw [hstep] at hstop
          cases hstop
      | step hnext hends =>
          rw [hstep] at hnext
          cases hnext
          exact Nat.succ_lt_succ (ih hends)

/-- The effects of a run are those of its iterations. -/
theorem effects_eq_flatMap (p : Program) (slot : Slot) (budget : Nat) (m : Machine) :
    m.effects p slot budget =
      (m.visits p slot budget).flatMap fun v => (v.effect? p slot).toList := by
  induction budget generalizing m with
  | zero => rfl
  | succ budget ih =>
      cases hs : m.step p slot with
      | running next => simp only [effects, visits, hs, List.flatMap_cons, ih]
      | stopped last result => simp only [effects, visits, hs, List.flatMap_cons, List.flatMap_nil]

end Machine

namespace Interpreter

variable {p : Program} {it : Interpreter} {slot : Slot} {m : Machine}

/-- The machines in front of the iterations for which the thread in a slot would run. -/
def visits (p : Program) (it : Interpreter) (slot : Slot) : List Machine :=
  if (it.threads.thread slot).isAlive then (it.machine slot).visits p slot p.stepBudget else []

/-- What a run of the thread in a slot would do to other slots, first to last. -/
def effects (p : Program) (it : Interpreter) (slot : Slot) : List Effect :=
  (it.visits p slot).flatMap fun m => (m.effect? p slot).toList

theorem visits_of_alive (h : (it.threads.thread slot).isAlive) :
    it.visits p slot = (it.machine slot).visits p slot p.stepBudget := if_pos h

theorem visits_of_dead (h : ¬(it.threads.thread slot).isAlive) : it.visits p slot = [] := if_neg h

theorem effects_of_alive (h : (it.threads.thread slot).isAlive) :
    it.effects p slot = (it.machine slot).effects p slot p.stepBudget := by
  rw [effects, visits_of_alive h, Machine.effects_eq_flatMap]

/-- A run goes through all machines to which its iterations lead. -/
theorem Reachable.mem_visits_iff (h : it.Reachable fun _ => True) :
    m ∈ it.visits p slot ↔
      (it.threads.thread slot).isAlive ∧ ∃ n, Machine.Steps p slot n (it.machine slot) m := by
  by_cases ha : (it.threads.thread slot).isAlive
  · rw [visits_of_alive ha]
    constructor
    · exact fun hm => ⟨ha, Machine.steps_of_mem_visits hm⟩
    · rintro ⟨_, n, hsteps⟩
      obtain ⟨k, last, result, hk, hends⟩ := exists_ends h p ha
      exact Machine.mem_visits_of_steps hsteps (Nat.lt_of_lt_of_le (hends.lt_of_steps hsteps) hk)
  · simp only [visits_of_dead ha, ha, List.not_mem_nil, false_and, Bool.false_eq_true]

end Interpreter

end RoomScript
