import RoomScript.Interpreter

/-!
# Pacing

The host calls in at its own frame rate, the interpreter ticks at a fixed one. A pacer adds up the time
that has gone by and ticks when it reaches the interval. It then starts from zero, however much time
went by, so a long frame is never made up for by several ticks. Times are whole nanoseconds.

A run of updates is told together with its past: how much time each update let go by, and whether it
ticked.
-/
namespace RoomScript

/-- Nanoseconds between ticks: a thirtieth of a second. -/
def tickInterval : Nat := 1000000000 / 30

structure Pacer where
  interval : Nat := tickInterval
  accumulated : Nat := 0
  deriving DecidableEq

namespace Pacer

/-- Lets time go by. When the interval is reached the interpreter ticks; the result says whether it
did. -/
def update (pacer : Pacer) (elapsed : Nat) (it : Interpreter) (p : Program) :
    Pacer × Report Bool :=
  let total := pacer.accumulated + elapsed
  if total < pacer.interval then
    ({ pacer with accumulated := total }, { interpreter := it, result := .ok false })
  else
    let ticked := it.tick p
    ({ pacer with accumulated := 0 },
      { ticked with result := ticked.result.map fun _ => true })

variable {p : Program} {it : Interpreter} {elapsed : Nat}

/-- An update that ticks reports that it did, or the fault that the tick ended in. -/
def Ticked (report : Report Bool) : Prop := report.result ≠ .ok false

instance (report : Report Bool) : Decidable (Ticked report) :=
  match h : report.result with
  | .ok false => isFalse fun hticked => hticked h
  | .ok true => isTrue fun hidle => nomatch h.symm.trans hidle
  | .error _ => isTrue fun hidle => nomatch h.symm.trans hidle

/-- Before the interval has gone by nothing happens. -/
theorem update_of_lt {pacer : Pacer} (h : pacer.accumulated + elapsed < pacer.interval) :
    pacer.update elapsed it p =
      ({ pacer with accumulated := pacer.accumulated + elapsed },
        { interpreter := it, result := .ok false }) := if_pos h

/-- The report of a tick, told as that of an update. -/
def tickReport (p : Program) (it : Interpreter) : Report Bool :=
  { it.tick p with result := (it.tick p).result.map fun _ => true }

theorem update_of_le {pacer : Pacer} (h : pacer.interval ≤ pacer.accumulated + elapsed) :
    pacer.update elapsed it p = ({ pacer with accumulated := 0 }, tickReport p it) :=
  if_neg (Nat.not_lt.mpr h)

theorem ticked_tickReport (p : Program) (it : Interpreter) : Ticked (tickReport p it) := by
  unfold Ticked tickReport
  cases (it.tick p).result <;> simp [Except.map]

theorem not_ticked_idle (it : Interpreter) :
    ¬Ticked { interpreter := it, result := .ok false } := fun h => h rfl

/-- An update ticks exactly when the interval has gone by. -/
theorem ticked_iff (pacer : Pacer) (elapsed : Nat) (it : Interpreter) (p : Program) :
    Ticked (pacer.update elapsed it p).2 ↔ pacer.interval ≤ pacer.accumulated + elapsed := by
  by_cases h : pacer.interval ≤ pacer.accumulated + elapsed
  · simp only [update_of_le h, ticked_tickReport, h]
  · simp only [update_of_lt (Nat.lt_of_not_le h), not_ticked_idle, h]

theorem update_of_ticked {pacer : Pacer} (h : Ticked (pacer.update elapsed it p).2) :
    pacer.update elapsed it p = ({ pacer with accumulated := 0 }, tickReport p it) :=
  update_of_le ((ticked_iff pacer elapsed it p).mp h)

theorem update_of_not_ticked {pacer : Pacer} (h : ¬Ticked (pacer.update elapsed it p).2) :
    pacer.update elapsed it p =
      ({ pacer with accumulated := pacer.accumulated + elapsed },
        { interpreter := it, result := .ok false }) :=
  update_of_lt (Nat.lt_of_not_le (mt (ticked_iff pacer elapsed it p).mpr h))

theorem accumulated_update (pacer : Pacer) (elapsed : Nat) (it : Interpreter) (p : Program) :
    (pacer.update elapsed it p).1.accumulated = 0 ∨
      (pacer.update elapsed it p).1.accumulated < pacer.interval := by
  by_cases h : pacer.interval ≤ pacer.accumulated + elapsed
  · exact .inl (by rw [update_of_le h])
  · have hlt := Nat.lt_of_not_le h
    exact .inr (by rwa [update_of_lt hlt])

/-- The time that each update of a run let go by and whether it ticked, first to last. -/
abbrev Past := List (Nat × Bool)

/-- A run of updates. -/
structure Run where
  pacer : Pacer
  interpreter : Interpreter
  past : Past := []

/-- A new pacer in front of some interpreter. -/
def Run.start (interval : Nat) (it : Interpreter) : Run :=
  { pacer := { interval }, interpreter := it }

/-- The run with one more update. -/
def Run.update (p : Program) (r : Run) (elapsed : Nat) : Run :=
  let next := r.pacer.update elapsed r.interpreter p
  { pacer := next.1
    interpreter := next.2.interpreter
    past := r.past ++ [(elapsed, decide (Ticked next.2))] }

/-- The run of updates with some times, first to last. -/
def run (p : Program) (interval : Nat) (it : Interpreter) (times : List Nat) : Run :=
  times.foldl (Run.update p) (.start interval it)

theorem run_concat (p : Program) (interval : Nat) (it : Interpreter) (times : List Nat)
    (elapsed : Nat) :
    run p interval it (times ++ [elapsed]) = (run p interval it times).update p elapsed := by
  rw [run, List.foldl_append]
  rfl

namespace Run

variable {r : Run}

theorem update_of_lt (h : r.pacer.accumulated + elapsed < r.pacer.interval) :
    r.update p elapsed =
      { pacer := { r.pacer with accumulated := r.pacer.accumulated + elapsed }
        interpreter := r.interpreter
        past := r.past ++ [(elapsed, false)] } := by
  simp only [update, Pacer.update_of_lt h, not_ticked_idle, decide_false]

theorem update_of_le (h : r.pacer.interval ≤ r.pacer.accumulated + elapsed) :
    r.update p elapsed =
      { pacer := { r.pacer with accumulated := 0 }
        interpreter := (r.interpreter.tick p).interpreter
        past := r.past ++ [(elapsed, true)] } := by
  simp only [update, Pacer.update_of_le h, ticked_tickReport, decide_true]
  rfl

end Run

end Pacer

end RoomScript
