import RoomScript.Proofs.Dispatch.Lockstep
import RoomScript.Proofs.Frame

/-!
# What a thread sees of the others

Of the other threads a thread sees only which slots are alive, when it looks for a slot to start an event in.
So two interpreters that hold the same thread in a slot, the same store, and live threads in the same slots run
that thread in the same way, whatever the other threads are: it makes the same calls, ends in the same way, and
starts and kills the same threads elsewhere, while each interpreter keeps its own threads in all other slots.
-/
namespace RoomScript

namespace Pool

variable {pool pool' : Pool} {running : Slot}

/-- The same slots are alive, the one that is running left aside. -/
def SameAlive (running : Slot) (pool pool' : Pool) : Prop :=
  ∀ k, k ≠ running → (pool'.thread k).isAlive = (pool.thread k).isAlive

theorem SameAlive.place? (h : SameAlive running pool pool') (requested : UInt8) :
    pool'.place? (some running) requested = pool.place? (some running) requested := by
  have hfree : (fun i => decide (some running ≠ some i ∧ !(pool'.thread i).isAlive)) =
      fun i => decide (some running ≠ some i ∧ !(pool.thread i).isAlive) := by
    funext i
    by_cases hi : i = running
    · simp [hi]
    · rw [h i hi]
  simp only [Pool.place?, firstDead?, hfree]

theorem SameAlive.apply (h : SameAlive running pool pool') (e : Effect) :
    SameAlive running (e.apply pool) (e.apply pool') := by
  intro k hk
  by_cases he : e.slot = k
  · subst he
    simp only [Effect.apply, thread_put_self]
  · simp only [Effect.apply, thread_put_of_ne he]
    exact h k hk

theorem SameAlive.foldl_apply (h : SameAlive running pool pool') (es : List Effect) :
    SameAlive running (es.foldl Effect.apply pool) (es.foldl Effect.apply pool') := by
  induction es generalizing pool pool' with
  | nil => exact h
  | cons e es ih => exact ih (h.apply e)

end Pool

namespace Machine

variable {U : Cell → Prop} {m m' : Machine} {slot : Slot}

theorem effect?_of_sameAlive (h : m'.thread = m.thread) (hp : m.pool.SameAlive slot m'.pool)
    (p : Program) : m'.effect? p slot = m.effect? p slot := by
  have hcommand (c : EventCommand) : c.effect? p slot m'.pool = c.effect? p slot m.pool := by
    cases c with
    | exec requested event => simp only [EventCommand.effect?, hp.place?]
    | kill number => rfl
  simp only [effect?, h, hcommand]

/-- Runs in lockstep over pools with the same slots alive do the same to the other slots. -/
theorem InStep.effects (h : m.InStep U m') (hp : m.pool.SameAlive slot m'.pool) (p : Program)
    (budget : Nat) (hU : ∀ a ∈ m.journal p slot budget, U a.cell) :
    m'.effects p slot budget = m.effects p slot budget := by
  induction budget generalizing m m' with
  | zero => rfl
  | succ budget ih =>
      have he := effect?_of_sameAlive h.thread hp p
      rw [journal, visits, List.flatMap_cons, List.forall_mem_append] at hU
      obtain ⟨hfirst, hrest⟩ := hU
      obtain ⟨-, hstep⟩ := h.step p slot hfirst
      have hpool : (m.step p slot).machine.pool.SameAlive slot (m'.step p slot).machine.pool := by
        rw [pool_step, pool_step, he]
        cases m.effect? p slot with
        | none => exact hp
        | some e => exact hp.apply e
      rw [Machine.effects, Machine.effects, he]
      generalize m.step p slot = next, m'.step p slot = next' at hstep hpool hrest ⊢
      cases hstep with
      | running hnext => exact congrArg _ (ih hnext hpool hrest)
      | stopped _ => rfl

end Machine

namespace Interpreter

/-- Two interpreters that look the same to the thread in a slot. -/
structure LooksSame (slot : Slot) (it it' : Interpreter) : Prop where
  thread : it'.threads.thread slot = it.threads.thread slot
  store : it'.store = it.store
  alive : it.threads.SameAlive slot it'.threads

/-- A run of the thread in a slot is the same on two interpreters, but for the threads that it leaves as
they are. -/
structure RunsSame (p : Program) (slot : Slot) (it it' : Interpreter)
    (report report' : Report Outcome) : Prop where
  result : report'.result = report.result
  calls : report'.calls = report.calls
  /-- The thread, the store and the slots that are alive look the same afterwards. -/
  looks : LooksSame slot report.interpreter report'.interpreter
  alive : ∀ k, (report'.interpreter.threads.thread k).isAlive =
    (report.interpreter.threads.thread k).isAlive
  /-- The same events are started and the same threads killed in the same slots in the same order. -/
  effects : it'.effects p slot = it.effects p slot
  /-- A slot in which the run has started or killed a thread holds the same thread afterwards. -/
  changed : ∀ e ∈ it.effects p slot, report'.interpreter.threads.thread e.slot =
    report.interpreter.threads.thread e.slot
  /-- In any other slot each interpreter keeps its own thread. -/
  kept : ∀ k, k ≠ slot → (∀ e ∈ it.effects p slot, e.slot ≠ k) →
    report.interpreter.threads.thread k = it.threads.thread k ∧
      report'.interpreter.threads.thread k = it'.threads.thread k

variable {p : Program} {slot : Slot} {it it' : Interpreter}

theorem LooksSame.machine (h : LooksSame slot it it') :
    (it.machine slot).InStep (fun _ => True) (it'.machine slot) where
  thread := by simp only [Interpreter.machine, h.thread]
  calls := rfl
  store c _ := by
    simp only [Interpreter.machine, h.store]
    exact .refl _ c

theorem LooksSame.isAlive (h : LooksSame slot it it') (k : Slot) :
    (it'.threads.thread k).isAlive = (it.threads.thread k).isAlive := by
  by_cases hk : k = slot
  · rw [hk, h.thread]
  · exact h.alive k hk

theorem LooksSame.run (h : LooksSame slot it it') (p : Program) :
    (it.machine slot).RunInStep (fun _ => True) p slot p.stepBudget (it'.machine slot) :=
  h.machine.runFor p slot p.stepBudget fun _ _ => trivial

theorem LooksSame.effects (h : LooksSame slot it it') (p : Program) :
    it'.effects p slot = it.effects p slot := by
  by_cases ha : (it.threads.thread slot).isAlive
  · rw [effects_of_alive ha, effects_of_alive (h.thread ▸ ha)]
    exact h.machine.effects h.alive p p.stepBudget fun _ _ => trivial
  · rw [Interpreter.effects, Interpreter.effects, visits_of_dead ha,
      visits_of_dead (h.thread ▸ ha)]

/-- After a run the interpreters still look the same to the thread. -/
theorem LooksSame.runSlot (h : LooksSame slot it it') (p : Program) :
    LooksSame slot (it.runSlot p slot).interpreter (it'.runSlot p slot).interpreter := by
  by_cases ha : (it.threads.thread slot).isAlive
  · have ha' : (it'.threads.thread slot).isAlive := h.thread ▸ ha
    have hrun := h.run p
    constructor
    · rw [runSlot_of_alive ha, runSlot_of_alive ha', threads_reportOf, threads_reportOf,
        Pool.thread_put_self, Pool.thread_put_self, hrun.last.thread]
    · rw [store_runSlot, store_runSlot, journal_of_alive ha, journal_of_alive ha', hrun.journal,
        h.store]
    · intro k hk
      have hpools := h.alive.foldl_apply (it.effects p slot) k hk
      rwa [Effect.thread_foldl, Effect.thread_foldl, ← thread_runSlot_other hk, ← h.effects p,
        ← thread_runSlot_other hk] at hpools
  · rw [runSlot_of_dead ha, runSlot_of_dead (h.thread ▸ ha)]
    exact h

/-- Threads see nothing of each other but the store and which slots are alive. -/
theorem runThread_same (p : Program) (slot : Slot) (h : LooksSame slot it it') :
    RunsSame p slot it it' (it.runThread p slot.val) (it'.runThread p slot.val) := by
  have hlooks := h.runSlot p
  rw [runThread_val, runThread_val]
  have hends : (it'.runSlot p slot).result = (it.runSlot p slot).result ∧
      (it'.runSlot p slot).calls = (it.runSlot p slot).calls := by
    by_cases ha : (it.threads.thread slot).isAlive
    · rw [runSlot_of_alive ha, runSlot_of_alive (h.thread ▸ ha), result_reportOf, result_reportOf,
        calls_reportOf, calls_reportOf]
      exact ⟨(h.run p).result, (h.run p).last.calls⟩
    · rw [runSlot_of_dead ha, runSlot_of_dead (h.thread ▸ ha)]
      exact ⟨rfl, rfl⟩
  exact {
    result := hends.1
    calls := hends.2
    looks := hlooks
    alive := hlooks.isAlive
    effects := h.effects p
    changed := fun e he => by
      have hne := slot_ne_of_mem_effects he
      rw [thread_runSlot_other hne, thread_runSlot_other hne, h.effects p]
      cases hl : Effect.last? e.slot (it.effects p slot) with
      | none => exact absurd rfl (Effect.last?_eq_none_iff.mp hl e he)
      | some last => rw [Effect.after_of_last? hl, Effect.after_of_last? hl]
    kept := fun k hk hnone => by
      rw [thread_runSlot_other hk, thread_runSlot_other hk, h.effects p]
      exact ⟨Effect.after_of_untouched hnone _, Effect.after_of_untouched hnone _⟩ }

/-- The event of slot 0 of a crowded pool does the same whether or not the thread of slot 1 has run. -/
theorem runThread_same_crowding :
    let first := (({} : Interpreter).serve crowding (.startEvent 0)).interpreter
    let second := (first.serve crowding (.startEvent 1)).interpreter
    let it := (second.serve crowding (.startEvent 1)).interpreter
    let it' := (it.runThread crowding 1).interpreter
    it'.threads.thread 1 ≠ it.threads.thread 1 ∧ it.effects crowding 0 ≠ [] ∧
      RunsSame crowding 0 it it' (it.runThread crowding 0) (it'.runThread crowding 0) := by
  intro first second it it'
  have hsame : LooksSame 0 it it' :=
    ⟨by decide +kernel, by decide +kernel, fun k _ => by revert k; decide +kernel⟩
  exact ⟨by decide +kernel, by decide +kernel, runThread_same crowding 0 hsame⟩

end Interpreter

end RoomScript
