import RoomScript.Assembly
import RoomScript.Proofs.Termination.Rank

/-!
# Every run ends

The rank of a running thread rises with every iteration of the dispatch loop and stays below the step
budget, so a run ends before its budget does. This holds of every interpreter that a session over any
programs reaches, for every program it is handed next. The run of a slot and a tick are then what they
are without any budget.
-/
namespace RoomScript

variable {p : Program} {slot : Slot}

theorem Thread.Stops.ne_exhausted {t t' : Thread} {result : Except Fault Outcome}
    (h : t.Stops p result t') : result ≠ .ok .exhausted := by
  cases h with
  | park hr => cases hr <;> simp
  | fail hr => simp
  | finish => simp

/-- No run stops because of its budget. -/
theorem Machine.Ends.ne_exhausted {n : Nat} {m m' : Machine} {result : Except Fault Outcome}
    (h : Ends p slot n m m' result) : result ≠ .ok .exhausted := by
  obtain ⟨_, _, _, _, hs⟩ := h.split
  exact (stops_of_stopped hs).ne_exhausted

theorem Thread.forward_invariant (p : Program) :
    Invariant p fun t => t.isAlive → t.Holds CallLevel.Forward :=
  invariant_of_levels (CallLevel.forward_invariant p)

/-- A run ends within the distance of the rank of its thread from the step budget. -/
theorem Machine.Keeps.ends {m : Machine} {budget : Nat}
    (h : m.Keeps fun t => t.isAlive → t.Holds CallLevel.Forward)
    (hb : p.stepBudget ≤ m.thread.rank p + budget) :
    ∃ n m' result, n ≤ budget ∧ Ends p slot n m m' result := by
  induction budget generalizing m with
  | zero =>
      have hlt := m.thread.rank_lt_stepBudget p
      omega
  | succ budget ih =>
      cases hs : m.step p slot with
      | stopped m' result => exact ⟨1, m', result, by omega, .stop hs⟩
      | running next =>
          have hrank := (moves_of_running hs).rank_lt (h.thread h.alive)
          have hk := h.step (Thread.forward_invariant p) (fun hd => by cases hd) hs
          obtain ⟨n, m', result, hn, hends⟩ := ih hk (by omega)
          exact ⟨n + 1, m', result, by omega, .step hs hends⟩

namespace Interpreter

variable {it : Interpreter}

/-- What running a slot comes to, and after how many iterations of the dispatch loop. -/
inductive Runs (p : Program) (slot : Slot) (it : Interpreter) : Nat → Report Outcome → Prop
  | dead : ¬(it.threads.thread slot).isAlive →
      Runs p slot it 0 { interpreter := it, result := .ok .terminated }
  | ends {n : Nat} {m : Machine} {result : Except Fault Outcome} :
      (it.threads.thread slot).isAlive → Machine.Ends p slot n (it.machine slot) m result →
      Runs p slot it n
        { interpreter := { threads := m.pool.put slot m.thread, store := m.store }
          calls := m.calls
          result }

/-- What running the live threads of some slots in order comes to, and after how many iterations. -/
inductive Ticks (p : Program) : List Slot → Interpreter → Nat → Report Unit → Prop
  | done (it : Interpreter) : Ticks p [] it 0 { interpreter := it, result := .ok () }
  | dead {slot : Slot} {rest : List Slot} {it : Interpreter} {n : Nat} {later : Report Unit} :
      ¬(it.threads.thread slot).isAlive → Ticks p rest it n later →
      Ticks p (slot :: rest) it n later
  | fault {slot : Slot} {rest : List Slot} {it : Interpreter} {n : Nat} {ran : Report Outcome}
      {fault : Fault} :
      (it.threads.thread slot).isAlive → it.Runs p slot n ran → ran.result = .error fault →
      Ticks p (slot :: rest) it n { ran with result := .error fault }
  | next {slot : Slot} {rest : List Slot} {it : Interpreter} {n k : Nat} {ran : Report Outcome}
      {outcome : Outcome} {later : Report Unit} :
      (it.threads.thread slot).isAlive → it.Runs p slot n ran → ran.result = .ok outcome →
      Ticks p rest ran.interpreter k later →
      Ticks p (slot :: rest) it (n + k) { later with calls := ran.calls ++ later.calls }

theorem Runs.ne_exhausted {n : Nat} {ran : Report Outcome} (h : it.Runs p slot n ran) :
    ran.result ≠ .ok .exhausted := by
  cases h with
  | dead _ => simp
  | ends _ hends => exact hends.ne_exhausted

/-- A run of a slot comes to one thing only. -/
theorem Runs.unique {n k : Nat} {ran ran' : Report Outcome} (h : it.Runs p slot n ran)
    (h' : it.Runs p slot k ran') : ran = ran' := by
  cases h with
  | dead hd =>
      cases h' with
      | dead _ => rfl
      | ends ha _ => exact absurd ha hd
  | ends ha hends =>
      cases h' with
      | dead hd => exact absurd ha hd
      | ends _ hends' =>
          obtain ⟨rfl, rfl⟩ := hends.unique hends'
          rfl

theorem exists_ends (h : it.Reachable fun _ => True) (p : Program)
    (ha : (it.threads.thread slot).isAlive) :
    ∃ n m result, n ≤ p.stepBudget ∧ Machine.Ends p slot n (it.machine slot) m result :=
  (machine_keeps (Thread.forward_invariant p)
    (h.all (fun p _ => Thread.forward_invariant p) fun hd => by cases hd) ha).ends
    (Nat.le_add_left _ _)

/-- A slot whose run is known reports what the run comes to. -/
theorem runSlot_of_ends (h : it.Reachable fun _ => True) (ha : (it.threads.thread slot).isAlive)
    {n : Nat} {m : Machine} {result : Except Fault Outcome}
    (hends : Machine.Ends p slot n (it.machine slot) m result) :
    it.runSlot p slot = reportOf slot (m, result) := by
  obtain ⟨k, m', result', hk, hends'⟩ := exists_ends h p ha
  obtain ⟨rfl, rfl⟩ := hends.unique hends'
  rw [runSlot_of_alive ha, hends'.runFor hk]

/-- Any budget that a run does not use up leads to the same report. -/
theorem runSlot_of_runFor (h : it.Reachable fun _ => True)
    (ha : (it.threads.thread slot).isAlive) {budget : Nat}
    (hr : ((it.machine slot).runFor p slot budget).2 ≠ .ok .exhausted) :
    it.runSlot p slot = reportOf slot ((it.machine slot).runFor p slot budget) := by
  obtain ⟨_, hends⟩ := Machine.ends_of_runFor hr
  exact runSlot_of_ends h ha hends

theorem exists_runs (h : it.Reachable fun _ => True) (p : Program) (slot : Slot) :
    ∃ n, n ≤ p.stepBudget ∧ it.Runs p slot n (it.runSlot p slot) := by
  by_cases ha : (it.threads.thread slot).isAlive
  · obtain ⟨n, m, result, hn, hends⟩ := exists_ends h p ha
    refine ⟨n, hn, ?_⟩
    rw [runSlot_of_alive ha, hends.runFor hn]
    exact .ends ha hends
  · rw [runSlot_of_dead ha]
    exact ⟨0, Nat.zero_le _, .dead ha⟩

/-- Running a slot is part of what a session can do, by the number of the slot. -/
theorem Reachable.runSlot {programs : Program → Prop} (h : Reachable programs it) (hp : programs p)
    (slot : Slot) : Reachable programs (it.runSlot p slot).interpreter := by
  rw [← runThread_val]
  exact h.runThread hp slot.val

theorem exists_ticks (h : it.Reachable fun _ => True) (p : Program) (slots : List Slot) :
    ∃ n, n ≤ slots.length * p.stepBudget ∧ Ticks p slots it n (tickSlots p slots it) := by
  induction slots generalizing it with
  | nil => exact ⟨0, Nat.zero_le _, .done it⟩
  | cons slot rest ih =>
      have hlength : (slot :: rest).length * p.stepBudget =
          p.stepBudget + rest.length * p.stepBudget := by
        rw [List.length_cons, Nat.succ_mul, Nat.add_comm]
      simp only [tickSlots]
      split
      · rename_i ha
        obtain ⟨n, hn, hruns⟩ := exists_runs h p slot
        split
        · rename_i fault hf
          exact ⟨n, by omega, .fault ha hruns hf⟩
        · rename_i outcome ho
          obtain ⟨k, hk, hticks⟩ := ih (h.runSlot trivial slot)
          exact ⟨n + k, by omega, .next ha hruns ho hticks⟩
      · rename_i ha
        obtain ⟨k, hk, hticks⟩ := ih h
        exact ⟨k, by omega, .dead ha hticks⟩

/-- Whatever programs an interpreter has run before, and whatever program it is handed now: each of its
threads runs for finitely many iterations up to a result of its own, and so does a tick. -/
theorem Reachable.run_and_tick_end (h : it.Reachable fun _ => True) (p : Program) :
    (∀ slot, ∃ n, n ≤ p.stepBudget ∧ it.Runs p slot n (it.runSlot p slot) ∧
      (it.runSlot p slot).result ≠ .ok .exhausted) ∧
    ∃ n, n ≤ maxThreads * p.stepBudget ∧ Ticks p (List.finRange maxThreads) it n (it.tick p) := by
  constructor
  · intro slot
    obtain ⟨n, hn, hruns⟩ := exists_runs h p slot
    exact ⟨n, hn, hruns, hruns.ne_exhausted⟩
  · have ht := exists_ticks h p (List.finRange maxThreads)
    rwa [List.length_finRange] at ht

/-- A loop that spans nothing over a conditional block that spans nothing: when the condition behind
them fails, the thread goes back to it. -/
def looping : Program where
  code := (Line.forLoop 2).encode.toArray ++ Line.ifelCk.encode.toArray ++
    (Line.checkBit 0 0 1).encode.toArray ++ ({ opcode := .next } : Line).encode.toArray
  entries := [0]

theorem looping_ends :
    let it := (({} : Interpreter).serve looping (.startEvent 0)).interpreter
    (it.threads.thread 0).isAlive ∧
      (∀ slot, ∃ n, n ≤ looping.stepBudget ∧ it.Runs looping slot n (it.runSlot looping slot) ∧
        (it.runSlot looping slot).result ≠ .ok .exhausted) ∧
      ∃ n, n ≤ maxThreads * looping.stepBudget ∧
        Ticks looping (List.finRange maxThreads) it n (it.tick looping) :=
  ⟨rfl, Reachable.run_and_tick_end (.serve (.startEvent 0) trivial .fresh) looping⟩

end Interpreter

end RoomScript
