import RoomScript.Proofs.Dispatch.Effect
import RoomScript.Proofs.Session

/-!
# Invariants of threads

A property of threads that starting, moving and stopping a thread keep holds of every thread of every
interpreter that a session can reach, whether its requests succeeded or failed. The threads of other
slots only change by being started or killed.
-/
namespace RoomScript

/-- What one iteration of the loop can do to the pool. -/
inductive Pool.Moves (p : Program) (slot : Slot) (pool : Pool) : Pool → Prop
  | same : Moves p slot pool pool
  | start {event requested : UInt8} {entry : Nat} {place : Slot} :
      p.entry? event = some entry → pool.place? (some slot) requested = some place →
      Moves p slot pool (pool.put place (Thread.start entry event))
  | kill {target : Slot} : target ≠ slot → Moves p slot pool (pool.kill target)

/-- One iteration starts or kills at most one thread of another slot. -/
theorem Machine.pool_moves (p : Program) (slot : Slot) (m : Machine) :
    m.pool.Moves p slot (m.step p slot).machine.pool := by
  rw [pool_step]
  cases he : m.effect? p slot with
  | none => exact .same
  | some e =>
      obtain ⟨_, c, _, _, hc⟩ := effect?_eq_some he
      cases e with
      | start place entry event =>
          obtain ⟨_, _, hentry, hplace⟩ := EventCommand.effect?_start hc
          exact .start hentry hplace
      | kill target =>
          obtain ⟨_, _, _, hne⟩ := EventCommand.effect?_kill hc
          exact .kill hne

namespace Thread

theorem Moves.status {p : Program} {t t' : Thread} (h : t.Moves p t') : t'.status = t.status := by
  cases h with
  | within => rfl
  | call _ _ _ ht =>
      unfold call? at ht
      split at ht <;> cases ht
      rfl
  | leave _ _ ht =>
      unfold return? at ht
      split at ht <;> cases ht
      rfl

theorem Moves.isAlive {p : Program} {t t' : Thread} (h : t.Moves p t') (ht : t.isAlive) :
    t'.isAlive := by
  simpa only [Thread.isAlive, h.status] using ht

/-- A property of threads that a program cannot break. -/
structure Invariant (p : Program) (T : Thread → Prop) : Prop where
  start : ∀ {event : UInt8} {entry : Nat}, p.entry? event = some entry → T (start entry event)
  resume : ∀ {t : Thread}, t.isAlive → T t → T { t with status := .running }
  move : ∀ {t t' : Thread}, t.isAlive → T t → t.Moves p t' → T t'
  stop : ∀ {t t' : Thread} {result : Except Fault Outcome},
    t.isAlive → T t → t.Stops p result t' → T t'

end Thread

/-- All threads of a pool have a property. -/
def Pool.All (T : Thread → Prop) (pool : Pool) : Prop := ∀ slot, T (pool.thread slot)

theorem Pool.All.put {T : Thread → Prop} {pool : Pool} (h : pool.All T) (slot : Slot) {t : Thread}
    (ht : T t) : (pool.put slot t).All T := by
  intro i
  by_cases hi : slot = i
  · subst hi
    rwa [thread_put_self]
  · rw [thread_put_of_ne hi]
    exact h i

@[simp] theorem Pool.thread_vacant (slot : Slot) : Pool.vacant.thread slot = Thread.dead := by
  simp [vacant, Pool.thread]

section

variable {p : Program} {T : Thread → Prop}

theorem Pool.All.moves {slot : Slot} {pool pool' : Pool} (hT : Thread.Invariant p T)
    (hd : T Thread.dead) (h : pool.All T) (hm : pool.Moves p slot pool') : pool'.All T := by
  cases hm with
  | same => exact h
  | start he _ => exact h.put _ (hT.start he)
  | kill _ => exact h.put _ hd

/-- A machine whose running thread is alive and whose threads all have a property. -/
structure Machine.Keeps (T : Thread → Prop) (m : Machine) : Prop where
  alive : m.thread.isAlive
  thread : T m.thread
  pool : m.pool.All T

theorem Machine.Keeps.step {slot : Slot} {m m' : Machine} (hT : Thread.Invariant p T)
    (hd : T Thread.dead) (h : m.Keeps T) (hs : m.step p slot = .running m') : m'.Keeps T where
  alive := (moves_of_running hs).isAlive h.alive
  thread := hT.move h.alive h.thread (moves_of_running hs)
  pool := by
    have hp := Machine.pool_moves p slot m
    rw [hs] at hp
    exact h.pool.moves hT hd hp

theorem Machine.Keeps.steps {slot : Slot} {n : Nat} {m m' : Machine} (hT : Thread.Invariant p T)
    (hd : T Thread.dead) (h : m.Keeps T) (hs : Steps p slot n m m') : m'.Keeps T :=
  hs.keeps (fun _ _ hm hr => Keeps.step hT hd hm hr) h

theorem Machine.Keeps.stop {slot : Slot} {m m' : Machine} {result : Except Fault Outcome}
    (hT : Thread.Invariant p T) (hd : T Thread.dead) (h : m.Keeps T)
    (hs : m.step p slot = .stopped m' result) : T m'.thread ∧ m'.pool.All T := by
  have hp := Machine.pool_moves p slot m
  rw [hs] at hp
  exact ⟨hT.stop h.alive h.thread (stops_of_stopped hs), h.pool.moves hT hd hp⟩

theorem Machine.Keeps.runFor {m : Machine} (hT : Thread.Invariant p T)
    (hd : T Thread.dead) (h : m.Keeps T) (slot : Slot) (budget : Nat) :
    T (m.runFor p slot budget).1.thread ∧ (m.runFor p slot budget).1.pool.All T := by
  induction budget generalizing m with
  | zero => exact ⟨h.thread, h.pool⟩
  | succ budget ih =>
      cases hs : m.step p slot with
      | running m' =>
          rw [runFor_of_running hs]
          exact ih (h.step hT hd hs)
      | stopped m' result =>
          rw [runFor_of_stopped hs]
          exact h.stop hT hd hs

/-- A run that fails does so in an iteration whose machine has the property. -/
theorem Machine.Keeps.exists_fault {m : Machine} {slot : Slot} {budget : Nat} {fault : Fault}
    (hT : Thread.Invariant p T) (hd : T Thread.dead) (h : m.Keeps T)
    (hf : (m.runFor p slot budget).2 = .error fault) :
    ∃ last m' : Machine, last.Keeps T ∧ last.step p slot = .stopped m' (.error fault) := by
  induction budget generalizing m with
  | zero => cases hf
  | succ budget ih =>
      cases hs : m.step p slot with
      | running m' =>
          rw [runFor_of_running hs] at hf
          exact ih (h.step hT hd hs) hf
      | stopped m' result =>
          rw [runFor_of_stopped hs] at hf
          exact ⟨m, m', h, hf ▸ hs⟩

namespace Interpreter

/-- The machine on which the dispatch loop runs the thread in a slot. -/
def machine (it : Interpreter) (slot : Slot) : Machine :=
  { thread := { it.threads.thread slot with status := .running }
    pool := it.threads
    store := it.store }

theorem run_machine (p : Program) (it : Interpreter) (slot : Slot) :
    Machine.run p slot
        { thread := it.threads.thread slot, pool := it.threads, store := it.store } =
      (it.machine slot).runFor p slot p.stepBudget :=
  Machine.run_eq _ _ _

/-- The report on a slot whose run has come to an end. -/
def reportOf (slot : Slot) (ran : Machine × Except Fault Outcome) : Report Outcome where
  interpreter := { threads := ran.1.pool.put slot ran.1.thread, store := ran.1.store }
  calls := ran.1.calls
  result := ran.2

theorem result_reportOf (slot : Slot) (ran : Machine × Except Fault Outcome) :
    (reportOf slot ran).result = ran.2 := rfl

theorem threads_reportOf (slot : Slot) (ran : Machine × Except Fault Outcome) :
    (reportOf slot ran).interpreter.threads = ran.1.pool.put slot ran.1.thread := rfl

theorem store_reportOf (slot : Slot) (ran : Machine × Except Fault Outcome) :
    (reportOf slot ran).interpreter.store = ran.1.store := rfl

theorem calls_reportOf (slot : Slot) (ran : Machine × Except Fault Outcome) :
    (reportOf slot ran).calls = ran.1.calls := rfl

theorem runSlot_of_alive {it : Interpreter} {slot : Slot}
    (h : (it.threads.thread slot).isAlive) :
    it.runSlot p slot = reportOf slot ((it.machine slot).runFor p slot p.stepBudget) := by
  simp only [← run_machine, runSlot, h, if_true, reportOf]

theorem runSlot_of_dead {it : Interpreter} {slot : Slot}
    (h : ¬(it.threads.thread slot).isAlive) :
    it.runSlot p slot = { interpreter := it, result := .ok .terminated } := by
  simp only [runSlot, h, Bool.false_eq_true, if_false]

/-- Running the thread in the slot with a number is running that slot. -/
theorem runThread_val (it : Interpreter) (p : Program) (slot : Slot) :
    it.runThread p slot.val = it.runSlot p slot := by
  simp only [runThread, Pool.slot?_val]

theorem machine_keeps {it : Interpreter} {slot : Slot} (hT : Thread.Invariant p T)
    (h : it.threads.All T) (ha : (it.threads.thread slot).isAlive) :
    (it.machine slot).Keeps T where
  alive := rfl
  thread := hT.resume ha (h slot)
  pool := h

theorem all_runSlot {it : Interpreter} (hT : Thread.Invariant p T) (hd : T Thread.dead)
    (h : it.threads.All T) (slot : Slot) : (it.runSlot p slot).interpreter.threads.All T := by
  by_cases ha : (it.threads.thread slot).isAlive
  · have hr := (machine_keeps hT h ha).runFor hT hd slot p.stepBudget
    rw [runSlot_of_alive ha, threads_reportOf]
    exact hr.2.put slot hr.1
  · rw [runSlot_of_dead ha]
    exact h

theorem all_runThread {it : Interpreter} (hT : Thread.Invariant p T) (hd : T Thread.dead)
    (h : it.threads.All T) (number : Nat) :
    (it.runThread p number).interpreter.threads.All T := by
  unfold runThread
  split
  · exact all_runSlot hT hd h _
  · exact h

theorem all_tickSlots {it : Interpreter} (hT : Thread.Invariant p T) (hd : T Thread.dead)
    (h : it.threads.All T) (slots : List Slot) :
    (tickSlots p slots it).interpreter.threads.All T := by
  induction slots generalizing it with
  | nil => exact h
  | cons slot rest ih =>
      have hr := all_runSlot hT hd h slot
      simp only [tickSlots]
      split
      · split
        · exact hr
        · exact ih hr
      · exact ih h

theorem all_startEvent {it it' : Interpreter} {event : UInt8} {slot : Option Slot}
    (hT : Thread.Invariant p T) (h : it.threads.All T)
    (hs : it.startEvent p event = .ok (it', slot)) : it'.threads.All T := by
  unfold startEvent at hs
  split at hs
  · cases hs
  · rename_i entry he
    split at hs <;> cases hs
    · exact h
    · exact h.put _ (hT.start he)

theorem all_serve {it : Interpreter} (hT : Thread.Invariant p T) (hd : T Thread.dead)
    (h : it.threads.All T) (request : Request) :
    (it.serve p request).interpreter.threads.All T := by
  cases request with
  | startEvent event =>
      simp only [serve]
      split
      · rename_i hs
        exact all_startEvent hT h hs
      · exact h
  | tick => exact all_tickSlots hT hd h _
  | runThread number => exact all_runThread hT hd h number
  | resetThreads => exact fun slot => (Pool.thread_vacant slot).symm ▸ hd
  | reset => exact fun slot => (Pool.thread_vacant slot).symm ▸ hd
  | store request => exact h

/-- An invariant holds of all threads of the interpreters that a session reaches. -/
theorem Reachable.all {programs : Program → Prop} {it : Interpreter}
    (hT : ∀ p, programs p → Thread.Invariant p T) (hd : T Thread.dead)
    (h : Reachable programs it) : it.threads.All T := by
  induction h with
  | fresh => exact fun slot => (Pool.thread_vacant slot).symm ▸ hd
  | serve request hp _ ih => exact all_serve (hT _ hp) hd ih request

end Interpreter

end

end RoomScript
