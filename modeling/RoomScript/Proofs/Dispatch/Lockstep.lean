import RoomScript.Proofs.Dispatch.Access

/-!
# Runs in lockstep

What a thread does within a run depends on itself and on the values of the cells that it uses, and on nothing
in the other slots. Two machines with the same thread, whose stores agree on some cells, go on in lockstep as
long as the thread uses no other cells: they carry out the same instructions with the same accesses, make the
same calls to the world, and stop in the same way.
-/
namespace RoomScript

/-- Machines with the same thread and the same calls made, whose stores hold the same values in some cells.
Nothing is said of their pools. -/
structure Machine.InStep (U : Cell → Prop) (m m' : Machine) : Prop where
  thread : m'.thread = m.thread
  calls : m'.calls = m.calls
  store : ∀ c, U c → m.store.Agree m'.store c

/-- Two iterations that both go on, or both stop with the same result. -/
inductive Progress.InStep (U : Cell → Prop) : Progress → Progress → Prop
  | running {m m' : Machine} : m.InStep U m' → InStep U (.running m) (.running m')
  | stopped {m m' : Machine} {result : Except Fault Outcome} :
      m.InStep U m' → InStep U (.stopped m result) (.stopped m' result)

/-- What an event command tells the thread that carries it out does not depend on the pool. -/
theorem EventCommand.signal_run (p : Program) (slot : Slot) (pool pool' : Pool) (c : EventCommand) :
    (c.run p slot pool').map (·.2) = (c.run p slot pool).map (·.2) := by
  cases c with
  | exec requested event =>
      simp only [run]
      cases p.entry? event with
      | none => rfl
      | some entry =>
          cases pool.place? (some slot) requested <;>
            cases pool'.place? (some slot) requested <;> rfl
  | kill number =>
      simp only [run]
      split
      · rfl
      · cases Pool.slot? number.toNat <;> rfl

namespace Machine.InStep

variable {U : Cell → Prop} {p : Program} {m m' : Machine}

theorem goto (h : m.InStep U m') (position : Nat) : (m.goto position).InStep U (m'.goto position) :=
  { h with thread := by simp only [Machine.goto, h.thread] }

theorem park (h : m.InStep U m') : m.park.InStep U m'.park :=
  { h with thread := by simp only [Machine.park, h.thread] }

/-- Machines in lockstep are about to carry out the same command. -/
theorem command? (h : m.InStep U m') : m'.command? p = m.command? p := by
  simp only [Machine.command?, h.thread]

/-- A command that only uses cells with the same values does the same on both. -/
theorem execute (h : m.InStep U m') (p : Program) (slot : Slot) (position : Nat) (c : Command)
    (hU : ∀ a ∈ c.accesses m.store, U a.cell) :
    c.accesses m'.store = c.accesses m.store ∧
      (m.execute p slot position c).1.InStep U (m'.execute p slot position c).1 ∧
      (m'.execute p slot position c).2 = (m.execute p slot position c).2 := by
  have hstore (has : c.accesses m'.store = c.accesses m.store) (cell : Cell) (hc : U cell) :
      (m.execute p slot position c).1.store.Agree (m'.execute p slot position c).1.store cell := by
    rw [store_execute, store_execute, has]
    exact (h.store cell hc).foldl_access _
  cases c with
  | flow c =>
      refine ⟨rfl, ?_⟩
      simp only [Machine.execute, h.thread]
      cases c.run p position m.thread with
      | error fault => exact ⟨h, rfl⟩
      | ok hs => exact ⟨{ h with thread := rfl }, rfl⟩
  | data c =>
      obtain ⟨has, hr⟩ := c.run_congr position fun a ha => h.store a.cell (hU a ha)
      exact ⟨has, { h with store := hstore has }, hr⟩
  | event c =>
      refine ⟨rfl, ?_⟩
      have hsignal := c.signal_run p slot m.pool m'.pool
      simp only [Machine.execute]
      generalize c.run p slot m.pool = r, c.run p slot m'.pool = r' at hsignal ⊢
      rcases r with fault | ⟨pool, signal⟩ <;> rcases r' with fault' | ⟨pool', signal'⟩ <;>
        cases hsignal
      · exact ⟨h, rfl⟩
      · exact ⟨⟨h.thread, h.calls, h.store⟩, rfl⟩
  | switch id length =>
      have hid : m'.store.var id = m.store.var id := (h.store _ (hU _ List.mem_cons_self)).symm
      refine ⟨rfl, ⟨?_, h.calls, hstore rfl⟩, ?_⟩ <;>
        simp only [Machine.execute, Store.readVar, h.thread, hid]
  | world i =>
      refine ⟨rfl, ?_⟩
      simp only [Machine.execute, h.thread]
      cases WorldCall.ofInstruction? m.thread.work i with
      | none => exact ⟨h, rfl⟩
      | some call => exact ⟨⟨rfl, congrArg (Array.push · call) h.calls, h.store⟩, rfl⟩

theorem unwind (h : m.InStep U m') (position : Nat) :
    (m.unwind position).InStep U (m'.unwind position) := by
  simp only [Machine.unwind, h.thread]
  split
  · exact .stopped (h.goto position).park
  · split
    · exact .stopped (h.goto position)
    · exact .running { h with thread := rfl }

theorem settle (h : m.InStep U m') (position : Nat) (result : Except Fault Signal) :
    (m.settle position result).InStep U (m'.settle position result) := by
  cases result with
  | error fault => exact .stopped (h.goto position)
  | ok signal =>
      cases signal with
      | proceed => exact .running h
      | conditionFalse => exact h.unwind position
      | yield => exact .stopped h.park
      | finish => exact .stopped { h with thread := rfl }

/-- Machines in lockstep stay in lockstep when the next iteration only uses cells with the same values. -/
theorem step (h : m.InStep U m') (p : Program) (slot : Slot)
    (hU : ∀ a ∈ m.accesses p, U a.cell) :
    m'.accesses p = m.accesses p ∧ (m.step p slot).InStep U (m'.step p slot) := by
  have hpc : m'.thread.pc = m.thread.pc := by rw [h.thread]
  cases hi : p.instructionAt m.thread.pc with
  | error cause =>
      have hi' : p.instructionAt m'.thread.pc = .error cause := hpc ▸ hi
      refine ⟨by simp only [accesses, Machine.command?, hi, hi', Option.elim_none], ?_⟩
      cases cause with
      | unknownOpcode byte =>
          rw [step_unknown hi, step_unknown hi', hpc]
          exact .running (h.goto _)
      | _ =>
          rw [step_undecodable hi (by simp), step_undecodable hi' (by simp), hpc]
          exact .stopped h
  | ok i =>
      have hi' : p.instructionAt m'.thread.pc = .ok i := hpc ▸ hi
      simp only [accesses, command?_of_instruction hi, command?_of_instruction hi',
        Option.elim_some] at hU ⊢
      obtain ⟨has, hm, hr⟩ := (h.goto (m.thread.pc + i.width)).execute p slot m.thread.pc
        (.ofInstruction i) hU
      refine ⟨has, ?_⟩
      rw [step_instruction hi, step_instruction hi', hpc, hr]
      exact hm.settle _ _

end Machine.InStep

/-- Two runs in lockstep from their first iteration to where they stop. -/
structure Machine.RunInStep (U : Cell → Prop) (p : Program) (slot : Slot) (budget : Nat)
    (m m' : Machine) : Prop where
  commands : (m'.visits p slot budget).map (·.command? p) =
    (m.visits p slot budget).map (·.command? p)
  journal : m'.journal p slot budget = m.journal p slot budget
  last : (m.runFor p slot budget).1.InStep U (m'.runFor p slot budget).1
  result : (m'.runFor p slot budget).2 = (m.runFor p slot budget).2

/-- A run that only uses cells with the same values goes in lockstep. -/
theorem Machine.InStep.runFor {U : Cell → Prop} {m m' : Machine} (h : m.InStep U m') (p : Program)
    (slot : Slot) (budget : Nat) (hU : ∀ a ∈ m.journal p slot budget, U a.cell) :
    m.RunInStep U p slot budget m' := by
  induction budget generalizing m m' with
  | zero => exact ⟨rfl, rfl, h, rfl⟩
  | succ budget ih =>
      -- The journal of the run is that of its first iteration and that of the rest.
      rw [journal, visits, List.flatMap_cons, List.forall_mem_append] at hU
      obtain ⟨hfirst, hrest⟩ := hU
      obtain ⟨has, hstep⟩ := h.step p slot hfirst
      generalize hs : m.step p slot = next, hs' : m'.step p slot = next' at hstep
      cases hstep with
      | running hnext =>
          rw [hs] at hrest
          have hrun := ih hnext hrest
          constructor
          · rw [visits_of_running hs, visits_of_running hs', List.map_cons, List.map_cons,
              h.command?, hrun.commands]
          · rw [journal, journal, visits_of_running hs, visits_of_running hs', List.flatMap_cons,
              List.flatMap_cons, has]
            exact congrArg _ hrun.journal
          · rw [runFor_of_running hs, runFor_of_running hs']
            exact hrun.last
          · rw [runFor_of_running hs, runFor_of_running hs']
            exact hrun.result
      | stopped hlast =>
          constructor
          · rw [visits_of_stopped hs, visits_of_stopped hs', List.map_singleton,
              List.map_singleton, h.command?]
          · rw [journal, journal, visits_of_stopped hs, visits_of_stopped hs',
              List.flatMap_singleton, List.flatMap_singleton, has]
          · rw [runFor_of_stopped hs, runFor_of_stopped hs']
            exact hlast
          · rw [runFor_of_stopped hs, runFor_of_stopped hs']

end RoomScript
