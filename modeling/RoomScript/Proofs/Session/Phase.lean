import RoomScript.Proofs.Termination
import Mathlib.Logic.Relation

/-!
# Sessions, one instruction at a time

Between two instructions a session is in one of three phases: the host has its turn, some slots are still
to be run, or the thread of a slot is running. A tick and the run of one slot are the same thing here, a
list of slots that are run one after another, and a fault ends the list early. All steps are those of the
dispatch loop and of the interpreter's own operations, so phases add nothing but the places in between:
the interpreters at which the host gets its turn are those that sessions of whole requests reach.
-/
namespace RoomScript

/-- The interpreter that a machine leaves when its thread stops and goes back to its slot. -/
def Machine.interpreter (slot : Slot) (m : Machine) : Interpreter :=
  { threads := m.pool.put slot m.thread, store := m.store }

/-- A run that has used up its budget has gone on for as many iterations. -/
theorem Machine.steps_of_exhausted {p : Program} {slot : Slot} {budget : Nat} {m : Machine}
    (h : (m.runFor p slot budget).2 = .ok .exhausted) :
    Steps p slot budget m (m.runFor p slot budget).1 := by
  induction budget generalizing m with
  | zero => exact .refl m
  | succ budget ih =>
      cases hs : m.step p slot with
      | running next =>
          rw [runFor_of_running hs] at h ⊢
          exact .step hs (ih h)
      | stopped last result =>
          rw [runFor_of_stopped hs] at h
          exact absurd h (stops_of_stopped hs).ne_exhausted

/-- The last iteration of a run that has used up its budget. -/
theorem Machine.step_runFor {slot : Slot} {n : Nat} {m : Machine}
    (h : (m.runFor p slot (n + 1)).2 = .ok .exhausted) :
    (m.runFor p slot n).1.step p slot = .running (m.runFor p slot (n + 1)).1 := by
  induction n generalizing m with
  | zero =>
      cases hs : m.step p slot with
      | running next =>
          rw [runFor_of_running hs]
          exact hs
      | stopped last result =>
          rw [runFor_of_stopped hs] at h
          exact absurd h (stops_of_stopped hs).ne_exhausted
  | succ n ih =>
      cases hs : m.step p slot with
      | running next =>
          rw [runFor_of_running hs] at h ⊢
          rw [runFor_of_running hs]
          exact ih h
      | stopped last result =>
          rw [runFor_of_stopped hs] at h
          exact absurd h (stops_of_stopped hs).ne_exhausted

/-- The requests that have threads run. -/
def Request.RunsThreads : Request → Prop
  | .tick => True
  | .runThread _ => True
  | _ => False

/-- Where a session stands between two instructions. -/
inductive Phase where
  /-- The host has its turn. -/
  | idle (it : Interpreter)
  /-- Some slots are to be run, in this order. -/
  | turns (p : Program) (slots : List Slot) (it : Interpreter)
  /-- The thread of a slot runs; some slots are to be run after it. -/
  | running (p : Program) (slot : Slot) (later : List Slot) (m : Machine)

namespace Phase

/-- The thread of a slot. While it runs, it is not in the pool. -/
def thread (slot : Slot) : Phase → Thread
  | .idle it => it.threads.thread slot
  | .turns _ _ it => it.threads.thread slot
  | .running _ s _ m => if s = slot then m.thread else m.pool.thread slot

/-- One step of a session: what the host may ask for while it has its turn, and what the interpreter does
until the host has its turn again. -/
inductive Next (programs : Program → Prop) : Phase → Phase → Prop
  | serve {p : Program} (it : Interpreter) {request : Request} :
      programs p → ¬request.RunsThreads →
      Next programs (.idle it) (.idle (it.serve p request).interpreter)
  | tick {p : Program} (it : Interpreter) : programs p →
      Next programs (.idle it) (.turns p (List.finRange maxThreads) it)
  | runThread {p : Program} (it : Interpreter) (slot : Slot) : programs p →
      Next programs (.idle it) (.turns p [slot] it)
  /-- A dead thread has no turn. -/
  | pass {p : Program} {slot : Slot} {later : List Slot} {it : Interpreter} :
      ¬(it.threads.thread slot).isAlive →
      Next programs (.turns p (slot :: later) it) (.turns p later it)
  | turn {p : Program} {slot : Slot} {later : List Slot} {it : Interpreter} :
      (it.threads.thread slot).isAlive →
      Next programs (.turns p (slot :: later) it) (.running p slot later (it.machine slot))
  | step {p : Program} {slot : Slot} {later : List Slot} {m m' : Machine} :
      m.step p slot = .running m' →
      Next programs (.running p slot later m) (.running p slot later m')
  | stop {p : Program} {slot : Slot} {later : List Slot} {m m' : Machine} {outcome : Outcome} :
      m.step p slot = .stopped m' (.ok outcome) →
      Next programs (.running p slot later m) (.turns p later (m'.interpreter slot))
  | fail {p : Program} {slot : Slot} {later : List Slot} {m m' : Machine} {fault : Fault} :
      m.step p slot = .stopped m' (.error fault) →
      Next programs (.running p slot later m) (.idle (m'.interpreter slot))
  | done (p : Program) (it : Interpreter) : Next programs (.turns p [] it) (.idle it)

/-- The phases to which sessions over some programs lead. -/
def Reachable (programs : Program → Prop) : Phase → Prop :=
  Relation.ReflTransGen (Next programs) (.idle {})

variable {programs : Program → Prop} {p : Program} {slot : Slot} {later : List Slot}

theorem path_of_steps {n : Nat} {m m' : Machine} (h : Machine.Steps p slot n m m') :
    Relation.ReflTransGen (Next programs) (.running p slot later m)
      (.running p slot later m') := by
  induction h with
  | refl => exact .refl
  | step hs _ ih => exact .head (.step hs) ih

/-- A run of a slot leads to the turns of the slots after it, unless it fails. -/
theorem path_of_ends {it : Interpreter} {n : Nat} {m : Machine} {result : Except Fault Outcome}
    (ha : (it.threads.thread slot).isAlive)
    (h : Machine.Ends p slot n (it.machine slot) m result) :
    Relation.ReflTransGen (Next programs) (.turns p (slot :: later) it)
      (match result with
      | .ok _ => .turns p later (m.interpreter slot)
      | .error _ => .idle (m.interpreter slot)) := by
  obtain ⟨_, last, _, hsteps, hlast⟩ := h.split
  have hpath : Relation.ReflTransGen (Next programs) (.turns p (slot :: later) it)
      (.running p slot later last) := .head (.turn ha) (path_of_steps hsteps)
  cases result with
  | ok outcome => exact hpath.tail (.stop hlast)
  | error fault => exact hpath.tail (.fail hlast)

theorem path_of_tickSlots {it : Interpreter} (h : it.Reachable fun _ => True) (slots : List Slot) :
    Relation.ReflTransGen (Next programs) (.turns p slots it)
      (.idle (Interpreter.tickSlots p slots it).interpreter) := by
  induction slots generalizing it with
  | nil => exact .single (.done p it)
  | cons slot later ih =>
      by_cases ha : (it.threads.thread slot).isAlive
      · obtain ⟨n, m, result, _, hends⟩ := Interpreter.exists_ends h p ha
        have hrun := Interpreter.runSlot_of_ends h ha hends
        have hnext := h.runSlot (p := p) trivial slot
        simp only [Interpreter.tickSlots, ha, if_true]
        rw [hrun] at hnext ⊢
        cases result with
        | error fault => exact path_of_ends ha hends
        | ok outcome => exact (path_of_ends ha hends).trans (ih hnext)
      · simp only [Interpreter.tickSlots, ha, Bool.false_eq_true, if_false]
        exact .head (.pass ha) (ih h)

/-- A list of one slot is run as the slot is. -/
theorem interpreter_tickSlots_singleton (it : Interpreter) (p : Program) (slot : Slot) :
    (Interpreter.tickSlots p [slot] it).interpreter = (it.runSlot p slot).interpreter := by
  by_cases ha : (it.threads.thread slot).isAlive
  · simp only [Interpreter.tickSlots, ha, if_true]
    cases (it.runSlot p slot).result <;> rfl
  · simp only [Interpreter.tickSlots, Interpreter.runSlot_of_dead ha, ha, Bool.false_eq_true,
      if_false]

/-- Every request is a path from one turn of the host to the next. -/
theorem path_of_serve {it : Interpreter} (h : it.Reachable fun _ => True) (hp : programs p)
    (request : Request) :
    Relation.ReflTransGen (Next programs) (.idle it) (.idle (it.serve p request).interpreter) := by
  cases request with
  | tick => exact .head (.tick it hp) (path_of_tickSlots h _)
  | runThread number =>
      simp only [Interpreter.serve, Interpreter.runThread]
      cases Pool.slot? number with
      | none => exact .refl
      | some slot =>
          refine .head (.runThread it slot hp) ?_
          have hrun := interpreter_tickSlots_singleton it p slot
          exact hrun ▸ path_of_tickSlots h [slot]
  | _ => exact .single (.serve it hp id)

/-- The host gets its turn at every interpreter that requests lead to. -/
theorem reachable_idle {it : Interpreter} (h : it.Reachable programs) :
    Reachable programs (.idle it) := by
  induction h with
  | fresh => exact .refl
  | serve request hp h ih =>
      exact ih.trans (path_of_serve (h.mono fun _ _ => trivial) hp request)

/-- What the requests served so far have to do with a phase: they led to an interpreter, and if a thread
runs, it has come this far in its run from there. -/
def Served (programs : Program → Prop) : Phase → Prop
  | .idle it => it.Reachable programs
  | .turns p _ it => programs p ∧ it.Reachable programs
  | .running p slot _ m => programs p ∧ ∃ (it : Interpreter) (n : Nat), it.Reachable programs ∧
      (it.threads.thread slot).isAlive ∧ Machine.Steps p slot n (it.machine slot) m

/-- When a thread stops, its slot has been run. -/
theorem reachable_stop {m m' : Machine} {result : Except Fault Outcome}
    (h : (running p slot later m).Served programs)
    (hs : m.step p slot = .stopped m' result) : (m'.interpreter slot).Reachable programs := by
  obtain ⟨hp, it, n, hr, ha, hsteps⟩ := h
  have hrun := Interpreter.runSlot_of_ends (hr.mono fun _ _ => trivial) ha
    (hsteps.ends (.stop hs))
  have hnext := hr.runSlot hp slot
  rwa [hrun] at hnext

theorem Next.served {φ ψ : Phase} (h : φ.Next programs ψ) (hs : φ.Served programs) :
    ψ.Served programs := by
  cases h with
  | serve it hp _ => exact .serve _ hp hs
  | tick it hp => exact ⟨hp, hs⟩
  | runThread it slot hp => exact ⟨hp, hs⟩
  | pass _ => exact ⟨hs.1, hs.2⟩
  | turn ha => exact ⟨hs.1, _, 0, hs.2, ha, .refl _⟩
  | step hstep =>
      obtain ⟨hp, it, n, hr, ha, hsteps⟩ := hs
      exact ⟨hp, it, n + 1, hr, ha, hsteps.trans (.single hstep)⟩
  | stop hstop => exact ⟨hs.1, reachable_stop hs hstop⟩
  | fail hstop => exact reachable_stop hs hstop
  | done p it => exact hs.2

theorem Reachable.served {φ : Phase} (h : φ.Reachable programs) : φ.Served programs := by
  induction h with
  | refl => exact Interpreter.Reachable.fresh
  | tail _ hn ih => exact hn.served ih

/-- The host gets its turn at the interpreters that requests lead to, and at no others. -/
theorem reachable_idle_iff {it : Interpreter} :
    Reachable programs (.idle it) ↔ it.Reachable programs :=
  ⟨Reachable.served, reachable_idle⟩

section Invariants

variable {T : Thread → Prop} {φ : Phase}

/-- A thread that runs is alive, and an invariant of threads holds of all threads of its machine. -/
theorem Reachable.keeps {m : Machine} (hT : ∀ p, programs p → Thread.Invariant p T)
    (hd : T Thread.dead) (h : Reachable programs (.running p slot later m)) : m.Keeps T := by
  obtain ⟨hp, it, n, hr, ha, hsteps⟩ := h.served
  exact (Interpreter.machine_keeps (hT p hp) (hr.all hT hd) ha).steps (hT p hp) hd hsteps

/-- An invariant of threads holds of all threads at every instruction. -/
theorem Reachable.all (hT : ∀ p, programs p → Thread.Invariant p T) (hd : T Thread.dead)
    (h : φ.Reachable programs) (slot : Slot) : T (φ.thread slot) := by
  cases φ with
  | idle it => exact h.served.all hT hd slot
  | turns p slots it => exact h.served.2.all hT hd slot
  | running p s later m =>
      have hk := h.keeps hT hd
      simp only [thread]
      split
      · exact hk.thread
      · exact hk.pool slot

end Invariants

end Phase

end RoomScript
