import RoomScript.Proofs.Structured.Simulation
import RoomScript.Proofs.Termination

/-!
# Structured programs mean what their blocks say

A thread that runs the code of a structured function does to the store, to its work target and to the world
what the meaning of the function's body says, and stops as the body ends. This holds wherever the function
stands in a program, whatever else the program holds, and whatever the interpreter has been through before.
-/
namespace RoomScript

open Machine

variable {p : Program} {slot : Slot} {m : Machine} {position : Nat} {level : CallLevel} {s : Scene}

/-- The end of an event ends its thread. -/
theorem Machine.step_evtEnd (hi : p.instructionAt position = .ok Line.evtEnd.instruction)
    (hd : m.thread.depth.val = 0) :
    (m.placed position level s).step p slot =
      .stopped { m.placed position level s with thread := Thread.dead } (.ok .terminated) := by
  have hstep : (m.placed position level s).step p slot = _ :=
    step_flow hi Command.ofInstruction_evtEnd
  have hdepth : (m.placed position level s).thread.depth.val = 0 := hd
  simp only [FlowCommand.run, hdepth, if_true] at hstep
  exact hstep

namespace Interpreter

variable {it : Interpreter}

/-- The scene on which the thread in a slot acts when it is run. -/
def scene (it : Interpreter) (slot : Slot) : Scene where
  store := it.store
  work := (it.threads.thread slot).work

/-- The report on a slot whose thread has run statements: they leave a scene, the other threads are as
they were, and the thread ends with the statements or stops where they do not come to their end. -/
structure Means (it : Interpreter) (slot : Slot) (r : Scene × Ending) (report : Report Outcome) :
    Prop where
  store : report.interpreter.store = r.1.store
  calls : report.calls = r.1.calls
  others : ∀ other, other ≠ slot →
    report.interpreter.threads.thread other = it.threads.thread other
  done : r.2 = .done → report.result = .ok .terminated ∧
    report.interpreter.threads.thread slot = Thread.dead
  stops : r.2 ≠ .done →
    r.2.Reports (report.interpreter.threads.thread slot).pc report.result ∧
      (report.interpreter.threads.thread slot).work = r.1.work

/-- The report of a slot in which a function's code is about to run. -/
theorem means_of_plays {r : Scene × Ending} {behind : Nat} (h : it.Reachable fun _ => True)
    (ha : (it.threads.thread slot).isAlive) (hd : (it.threads.thread slot).depth.val = 0)
    (hend : p.instructionAt behind = .ok Line.evtEnd.instruction)
    (hp : Plays p slot (it.machine slot) [] behind (it.machine slot) r) :
    it.Means slot r (it.runSlot p slot) := by
  obtain ⟨s, e⟩ := r
  by_cases he : e = .done
  · subst he
    obtain ⟨level, _, n, hsteps⟩ := hp
    have hends := hsteps.ends (.stop (step_evtEnd hend hd))
    rw [runSlot_of_ends h ha hends]
    exact {
      store := rfl
      calls := rfl
      others := fun other hne => Pool.thread_put_of_ne (Ne.symm hne) _
      done := fun _ => ⟨rfl, Pool.thread_put_self _ _ _⟩
      stops := fun hne => absurd rfl hne }
  · have hexit : Context.exit? [] behind e = none := by
      cases e with
      | done => exact absurd rfl he
      | _ => rfl
    simp only [Plays, hexit] at hp
    obtain ⟨n, m', result, hends, hr, hl⟩ := hp
    rw [runSlot_of_ends h ha hends]
    have hthread := Pool.thread_put_self m'.pool slot m'.thread
    exact {
      store := hl.store
      calls := hl.calls
      others := fun other hne => (Pool.thread_put_of_ne (Ne.symm hne) _).trans (by rw [hl.pool]; rfl)
      done := fun hdone => absurd hdone he
      stops := fun _ => by
        rw [threads_reportOf, hthread]
        exact ⟨hr, hl.work⟩ }

end Interpreter

open Interpreter

/-- The code of a structured function does what its body means, for every thread that gets to it with
nothing open on its call level; a slot whose event is about to run it reports the meaning. A function that
nests no more if-bodies and loops than a call level holds means the same with any more room, and never
runs out of it. -/
theorem Body.function_means (b : Body Statement) {code : List UInt8} (h : b.function = .ok code) {entry : Nat}
    (hp : p.Has entry code) :
    (∀ (slot : Slot) (m : Machine) (level : CallLevel) (s : Scene), level.Shows [] →
      Plays p slot m [] (entry + Line.extent b.lines) (m.placed entry level s)
        (b.eval ⟨jumpStackDepth, loopSlots⟩ s)) ∧
    (∀ (it : Interpreter) (slot : Slot), (it.Reachable fun _ => True) →
      (it.threads.thread slot).isAlive → (it.threads.thread slot).pc = entry →
      (it.threads.thread slot).depth.val = 0 → (it.threads.thread slot).level.Shows [] →
      it.Means slot (b.eval ⟨jumpStackDepth, loopSlots⟩ (it.scene slot)) (it.runSlot p slot)) ∧
    (b.ifDepth ≤ jumpStackDepth → b.loopDepth ≤ loopSlots → ∀ s,
      (∀ trap, (b.eval ⟨jumpStackDepth, loopSlots⟩ s).2 = .trapped trap → trap = .divisionByZero) ∧
      ∀ room : Room, jumpStackDepth ≤ room.blocks → loopSlots ≤ room.loops →
        b.eval room s = b.eval ⟨jumpStackDepth, loopSlots⟩ s) := by
  obtain ⟨hfits, hlists⟩ := lists_of_function h hp
  rw [Program.lists_append] at hlists
  have hplays : ∀ (slot : Slot) (m : Machine) (level : CallLevel) (s : Scene), level.Shows [] →
      Plays p slot m [] (entry + Line.extent b.lines) (m.placed entry level s)
        (b.eval ⟨jumpStackDepth, loopSlots⟩ s) :=
    fun slot m level s hs => b.playsAt hfits hlists.1 hs
  refine ⟨hplays, fun it slot hr ha hpc hd hs => ?_, fun hi hl s => ?_⟩
  · subst hpc
    have hrun := hplays slot (it.machine slot) (it.threads.thread slot).level (it.scene slot) hs
    have hplaced : (it.machine slot).placed (it.threads.thread slot).pc
        (it.threads.thread slot).level (it.scene slot) = it.machine slot := placed_self _
    rw [hplaced] at hrun
    exact means_of_plays hr ha hd hlists.2.1 hrun
  · have hfull : Room.Holds ⟨jumpStackDepth, loopSlots⟩ b.ifDepth b.loopDepth := ⟨hi, hl⟩
    constructor
    · exact (b.agree hfull hfull s).2
    · intro room hb hr
      exact (b.agree ⟨Nat.le_trans hi hb, Nat.le_trans hl hr⟩ hfull s).1

/-- A loop in a conditional block. Its condition fails in the second round, so that the else-body runs. -/
def counting : Body Statement :=
  .ifElse
    (.loop 3 (.leaf (.calculate .add 1 1) (.leaf (.compare 1 .lt 2) .done))
      (.leaf (.cutChg 5) .done))
    (.leaf (.cutChg 7) .done) (.leaf (.copy 2 1) .done)

theorem Body.function_means_counting :
    let code := Line.encodeAll (counting.lines ++ [.evtEnd])
    let p := Program.ofFunctions [code]
    let it := (({} : Interpreter).serve p (.startEvent 0)).interpreter
    counting.function = .ok code ∧ p.Has 0 code ∧
      (it.runSlot p 0).result = .ok .terminated ∧ (it.runSlot p 0).calls = #[.camera 7] ∧
      (it.runSlot p 0).interpreter.store.var 2 = 2 := by
  intro code p it
  have hcode : counting.function = .ok code := by rfl
  have hhas : p.Has 0 code := fun i _ => by simp [p, Program.ofFunctions]
  have hmeans := (counting.function_means hcode hhas).2.1 it 0 (.serve (.startEvent 0) trivial .fresh) rfl rfl
    rfl (.fresh 0)
  have hscene : counting.eval ⟨jumpStackDepth, loopSlots⟩ (it.scene 0) =
      ({ store := (({} : Store).setVar 1 2).setVar 2 2, work := {}, calls := #[.camera 7] },
        .done) := by decide +kernel
  rw [hscene] at hmeans
  refine ⟨hcode, hhas, (hmeans.done rfl).1, hmeans.calls, ?_⟩
  rw [hmeans.store]
  decide +kernel

end RoomScript
