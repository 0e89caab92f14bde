import RoomScript.Proofs.Dispatch.Lockstep

/-!
# Threads that do not meet

Two threads are independent when neither starts an event or kills the thread of another slot, and neither
writes what the other one reads or writes. Each of them then runs as if the other one had not: the cells it
uses hold the same values and nobody has touched its slot. So they can run in either order, with the same
results, the same calls, and the same interpreter in the end.
-/
namespace RoomScript

/-- The commands of a thread that leave all other slots alone, whatever is in them. -/
def Command.Quiet (slot : Slot) : Command → Prop
  | .event (.exec _ _) => False
  | .event (.kill number) => ∀ k : Slot, number.toNat = k.val → k = slot
  | _ => True

instance (slot : Slot) : DecidablePred (Command.Quiet slot)
  | .event (.exec _ _) => isFalse id
  | .event (.kill number) => inferInstanceAs (Decidable (∀ k : Slot, number.toNat = k.val → k = slot))
  | .flow _ => isTrue trivial
  | .data _ => isTrue trivial
  | .switch _ _ => isTrue trivial
  | .world _ => isTrue trivial

theorem Pool.put_comm {i j : Slot} (h : i ≠ j) (pool : Pool) (t t' : Thread) :
    (pool.put i t).put j t' = (pool.put j t').put i t :=
  Vector.set_comm t t' fun he => h (Fin.ext he)

namespace Machine

variable {p : Program} {slot : Slot} {m : Machine} {budget : Nat}

/-- The thread is not about to start an event or to kill the thread of another slot. -/
def Quiet (p : Program) (slot : Slot) (m : Machine) : Prop := ∀ c ∈ m.command? p, c.Quiet slot

instance (p : Program) (slot : Slot) : DecidablePred (Quiet p slot) :=
  fun m => inferInstanceAs (Decidable (∀ c ∈ m.command? p, c.Quiet slot))

theorem Quiet.effect? (h : m.Quiet p slot) : m.effect? p slot = none := by
  cases he : m.effect? p slot with
  | none => rfl
  | some e =>
      obtain ⟨c, hc, he⟩ := command?_of_effect? he
      have hquiet := h _ hc
      cases e with
      | start place entry event =>
          obtain ⟨_, rfl, _, _⟩ := EventCommand.effect?_start he
          exact hquiet.elim
      | kill target =>
          obtain ⟨_, rfl, hnumber, hne⟩ := EventCommand.effect?_kill he
          exact absurd (hquiet target hnumber) hne

/-- A run without commands to other slots leaves the pool as it was. -/
theorem pool_runFor_of_quiet (h : ∀ v ∈ m.visits p slot budget, v.Quiet p slot) :
    (m.runFor p slot budget).1.pool = m.pool := by
  have hnone : m.effects p slot budget = [] := by
    rw [effects_eq_flatMap, List.flatMap_eq_nil_iff]
    intro v hv
    rw [(h v hv).effect?]
    rfl
  rw [pool_runFor, hnone]
  rfl

/-- Runs in lockstep carry out the same commands. -/
theorem RunInStep.quiet {U : Cell → Prop} {m' : Machine} (h : m.RunInStep U p slot budget m')
    (hq : ∀ v ∈ m.visits p slot budget, v.Quiet p slot) :
    ∀ v ∈ m'.visits p slot budget, v.Quiet p slot := by
  intro v' hv' c hc
  have hmem := h.commands ▸ List.mem_map_of_mem hv'
  obtain ⟨v, hv, hcommand⟩ := List.mem_map.mp hmem
  exact hq v hv c (hcommand ▸ hc)

end Machine

namespace Interpreter

variable {p : Program} {it : Interpreter} {i j slot : Slot}

/-- Two live threads, in different slots, that would not meet. -/
structure Independent (p : Program) (it : Interpreter) (i j : Slot) : Prop where
  ne : i ≠ j
  alive : (it.threads.thread i).isAlive ∧ (it.threads.thread j).isAlive
  /-- Neither run starts an event or kills the thread of another slot. -/
  quiet : (∀ m ∈ it.visits p i, m.Quiet p i) ∧ ∀ m ∈ it.visits p j, m.Quiet p j
  /-- No cell that one run writes is read or written by the other. -/
  apart : Access.Apart (it.journal p i) (it.journal p j)

theorem Independent.symm (h : it.Independent p i j) : it.Independent p j i where
  ne := h.ne.symm
  alive := h.alive.symm
  quiet := h.quiet.symm
  apart b hb a ha := (h.apart a ha b hb).symm

/-- The two threads of an interpreter can run in either order. -/
structure Commute (p : Program) (it : Interpreter) (i j : Slot) : Prop where
  result : ((it.runThread p j).interpreter.runThread p i).result = (it.runThread p i).result ∧
    ((it.runThread p i).interpreter.runThread p j).result = (it.runThread p j).result
  calls : ((it.runThread p j).interpreter.runThread p i).calls = (it.runThread p i).calls ∧
    ((it.runThread p i).interpreter.runThread p j).calls = (it.runThread p j).calls
  interpreter : ((it.runThread p i).interpreter.runThread p j).interpreter =
    ((it.runThread p j).interpreter.runThread p i).interpreter

theorem threads_runSlot_of_quiet (ha : (it.threads.thread slot).isAlive)
    (hq : ∀ m ∈ it.visits p slot, m.Quiet p slot) :
    (it.runSlot p slot).interpreter.threads =
      it.threads.put slot ((it.machine slot).runFor p slot p.stepBudget).1.thread := by
  rw [visits_of_alive ha] at hq
  rw [runSlot_of_alive ha, threads_reportOf, Machine.pool_runFor_of_quiet hq]
  rfl

namespace Independent

theorem thread_runSlot (h : it.Independent p i j) :
    (it.runSlot p i).interpreter.threads.thread j = it.threads.thread j := by
  rw [threads_runSlot_of_quiet h.alive.1 h.quiet.1, Pool.thread_put_of_ne h.ne]

/-- Behind a run of an independent thread a thread runs in lockstep with itself. -/
theorem run (h : it.Independent p i j) :
    (it.machine j).RunInStep (fun c => ∀ a ∈ it.journal p i, a.Spares c) p j p.stepBudget
      ((it.runSlot p i).interpreter.machine j) := by
  have hstep : (it.machine j).InStep (fun c => ∀ a ∈ it.journal p i, a.Spares c)
      ((it.runSlot p i).interpreter.machine j) := by
    constructor
    · simp only [machine, h.thread_runSlot]
    · rfl
    · intro c hc
      simp only [machine, store_runSlot]
      exact (Store.agree_foldl_access hc).symm
  apply hstep.runFor
  intro b hb a ha
  rw [← journal_of_alive h.alive.2] at hb
  exact (h.apart a ha b hb).1

/-- Behind a run of an independent thread a thread runs as if that had not run. -/
theorem runSlot (h : it.Independent p i j) :
    ((it.runSlot p i).interpreter.runSlot p j).result = (it.runSlot p j).result ∧
      ((it.runSlot p i).interpreter.runSlot p j).calls = (it.runSlot p j).calls ∧
      ((it.runSlot p i).interpreter.runSlot p j).interpreter =
        { threads := (it.threads.put i ((it.machine i).runFor p i p.stepBudget).1.thread).put j
            ((it.machine j).runFor p j p.stepBudget).1.thread
          store := (it.journal p j).foldl Store.access
            ((it.journal p i).foldl Store.access it.store) } := by
  have ha : ((it.runSlot p i).interpreter.threads.thread j).isAlive :=
    h.thread_runSlot ▸ h.alive.2
  -- In lockstep with what it would be alone, the second run leaves the pool alone as well.
  have hrun := h.run
  have hquiet : ∀ m ∈ (it.runSlot p i).interpreter.visits p j, m.Quiet p j := by
    rw [visits_of_alive ha]
    apply hrun.quiet
    rw [← visits_of_alive h.alive.2]
    exact h.quiet.2
  have hthreads := threads_runSlot_of_quiet ha hquiet
  have hstore := store_runSlot p (it.runSlot p i).interpreter j
  rw [threads_runSlot_of_quiet h.alive.1 h.quiet.1, hrun.last.thread] at hthreads
  rw [journal_of_alive ha, hrun.journal, ← journal_of_alive h.alive.2, store_runSlot p it i] at hstore
  refine ⟨?_, ?_, ?_⟩
  · rw [runSlot_of_alive ha, runSlot_of_alive h.alive.2, result_reportOf, result_reportOf,
      hrun.result]
  · rw [runSlot_of_alive ha, runSlot_of_alive h.alive.2, calls_reportOf, calls_reportOf,
      hrun.last.calls]
  · rw [← hthreads, ← hstore]

/-- Independent threads can run in either order. -/
theorem runs_commute (h : it.Independent p i j) : it.Commute p i j := by
  obtain ⟨hresult, hcalls, hend⟩ := h.runSlot
  obtain ⟨hresult', hcalls', hend'⟩ := h.symm.runSlot
  constructor <;> simp only [runThread_val]
  · exact ⟨hresult', hresult⟩
  · exact ⟨hcalls', hcalls⟩
  · rw [hend, hend', Pool.put_comm h.ne, Store.foldl_access_comm h.apart]

/-- Two events that read the same variable. The first one turns over a flag and sleeps, the second one fails
after a call to the world. -/
def strangers : Program :=
  .ofFunctions [([Line.copy 1 7, .setBit 0 1 .flip, .cutChg 4] ++ Line.sleep 3).flatMap Line.encode,
    [Line.copy 2 7, .checkBit 3 3 0, .cutChg 5, .calculate .div 2 0].flatMap Line.encode]

theorem runs_commute_strangers :
    let first := (({} : Interpreter).serve strangers (.startEvent 0)).interpreter
    let it := (first.serve strangers (.startEvent 1)).interpreter
    it.journal strangers 0 = [.readVar 7, .writeVar 1 0, .readFlag 0 1, .writeFlag 0 1 true] ∧
      it.journal strangers 1 =
        [.readVar 7, .writeVar 2 0, .readFlag 3 3, .readVar 2] ∧
      it.Independent strangers 0 1 ∧ it.Commute strangers 0 1 := by
  intro first it
  have h : it.Independent strangers 0 1 := by
    refine ⟨by decide, ⟨?_, ?_⟩, ⟨?_, ?_⟩, ?_⟩ <;> decide +kernel
  exact ⟨by decide +kernel, by decide +kernel, h, h.runs_commute⟩

end Independent

end Interpreter

end RoomScript
