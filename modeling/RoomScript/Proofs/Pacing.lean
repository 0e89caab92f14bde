import RoomScript.Pacing
import Mathlib.Algebra.BigOperators.Group.List.Basic
import Mathlib.Algebra.Ring.Nat
import Mathlib.Data.List.DropRight
import Mathlib.Logic.Function.Iterate

/-!
# Pace

A host calls a new pacer with any times, one after another. What the pacer has added up is always the time since
the last tick, so a tick comes with the first update by which the interval has gone by since the tick before.
Whatever goes by beyond the interval is lost. From this follow bounds on the number of ticks in a given time, in
both directions.
-/
namespace RoomScript

namespace Pacer

variable {p : Program} {it : Interpreter} {interval elapsed : Nat}

namespace Past

/-- The time that has gone by since the last update that ticked, or since the start. -/
def waited (past : Past) : Nat := ((past.rtakeWhile fun update => !update.2).map (·.1)).sum

/-- All the time that has gone by. -/
def total (past : Past) : Nat := (past.map (·.1)).sum

/-- How many updates ticked. -/
def ticks (past : Past) : Nat := past.countP (·.2)

variable (past : Past) (elapsed : Nat)

@[simp] theorem waited_idle : waited (past ++ [(elapsed, false)]) = past.waited + elapsed := by
  simp [waited]

@[simp] theorem waited_tick : waited (past ++ [(elapsed, true)]) = 0 := by
  simp [waited]

@[simp] theorem total_concat (ticked : Bool) :
    total (past ++ [(elapsed, ticked)]) = past.total + elapsed := by
  simp [total]

@[simp] theorem ticks_idle : ticks (past ++ [(elapsed, false)]) = past.ticks := by
  simp [ticks]

@[simp] theorem ticks_tick : ticks (past ++ [(elapsed, true)]) = past.ticks + 1 := by
  simp [ticks]

end Past

namespace Run

variable {r : Run}

/-- What a run of updates keeps. -/
structure Paced (p : Program) (interval : Nat) (it : Interpreter) (r : Run) : Prop where
  interval_eq : r.pacer.interval = interval
  /-- The pacer has added up the time since the last tick. -/
  accumulated_eq : r.pacer.accumulated = r.past.waited
  waited_lt : 0 < interval → r.past.waited < interval
  /-- Each tick took at least the interval. -/
  ticks_le : r.past.ticks * interval + r.past.waited ≤ r.past.total
  /-- Each tick took less than the interval up to its own update. -/
  total_le : 0 < interval → ∀ longest, (∀ update ∈ r.past, update.1 ≤ longest) →
    r.past.total ≤ r.past.ticks * (interval + longest) + r.past.waited
  interpreter_eq : r.interpreter = (fun it => (it.tick p).interpreter)^[r.past.ticks] it

theorem paced_start (p : Program) (interval : Nat) (it : Interpreter) :
    (start interval it).Paced p interval it where
  interval_eq := rfl
  accumulated_eq := rfl
  waited_lt h := h
  ticks_le := by simp [start, Past.ticks, Past.waited, Past.total]
  total_le := by simp [start, Past.ticks, Past.waited, Past.total]
  interpreter_eq := rfl

theorem Paced.idle (h : r.Paced p interval it) (hlt : r.past.waited + elapsed < interval) :
    (r.update p elapsed).Paced p interval it := by
  have hlt' : r.pacer.accumulated + elapsed < r.pacer.interval := by
    rwa [h.accumulated_eq, h.interval_eq]
  rw [update_of_lt hlt']
  constructor
  case interval_eq => exact h.interval_eq
  case accumulated_eq => rw [Past.waited_idle, h.accumulated_eq]
  case waited_lt =>
    intro _
    rwa [Past.waited_idle]
  case ticks_le =>
    have hle := h.ticks_le
    rw [Past.ticks_idle, Past.waited_idle, Past.total_concat]
    omega
  case total_le =>
    intro hpos longest hlong
    have hle := h.total_le hpos longest fun update hu => hlong update (List.mem_append_left _ hu)
    rw [Past.ticks_idle, Past.waited_idle, Past.total_concat]
    omega
  case interpreter_eq => rw [Past.ticks_idle, ← h.interpreter_eq]

theorem Paced.tick (h : r.Paced p interval it) (hle : interval ≤ r.past.waited + elapsed) :
    (r.update p elapsed).Paced p interval it := by
  have hle' : r.pacer.interval ≤ r.pacer.accumulated + elapsed := by
    rwa [h.accumulated_eq, h.interval_eq]
  rw [update_of_le hle']
  constructor
  case interval_eq => exact h.interval_eq
  case accumulated_eq => rw [Past.waited_tick]
  case waited_lt =>
    intro hpos
    rwa [Past.waited_tick]
  case ticks_le =>
    have hle := h.ticks_le
    rw [Past.ticks_tick, Past.waited_tick, Past.total_concat, Nat.succ_mul]
    omega
  case total_le =>
    intro hpos longest hlong
    have hle := h.total_le hpos longest fun update hu => hlong update (List.mem_append_left _ hu)
    have hlast := hlong (elapsed, true) (by simp)
    have hwaited := h.waited_lt hpos
    rw [Past.ticks_tick, Past.waited_tick, Past.total_concat, Nat.succ_mul]
    omega
  case interpreter_eq => rw [Past.ticks_tick, Function.iterate_succ_apply', ← h.interpreter_eq]

end Run

theorem paced_run (p : Program) (interval : Nat) (it : Interpreter) (times : List Nat) :
    (run p interval it times).Paced p interval it := by
  induction times using List.reverseRecOn with
  | nil => exact Run.paced_start p interval it
  | append_singleton times elapsed ih =>
      rw [run_concat]
      by_cases h : interval ≤ (run p interval it times).past.waited + elapsed
      · exact ih.tick h
      · exact ih.idle (Nat.lt_of_not_le h)

/-- The past of a run tells the times that it was given. -/
theorem map_past_run (p : Program) (interval : Nat) (it : Interpreter) (times : List Nat) :
    (run p interval it times).past.map (·.1) = times := by
  induction times using List.reverseRecOn with
  | nil => rfl
  | append_singleton times elapsed ih =>
      rw [run_concat, Run.update, List.map_append, ih]
      rfl

/-- A new pacer keeps its pace over any run of updates. Each further update ticks exactly when the interval has
gone by since the last update that ticked, or since the start. It then ticks once, with whatever result, and
starts again from zero; otherwise it leaves the interpreter alone. So a run ticks at most once for each interval
that has gone by, and at least once for each interval and one longest update more, and nothing but these ticks
has changed the interpreter. -/
theorem keeps_pace (p : Program) (interval : Nat) (it : Interpreter) (times : List Nat) :
    let r := run p interval it times
    (∀ elapsed,
      let next := r.pacer.update elapsed r.interpreter p
      (next.1.accumulated = 0 ∨ next.1.accumulated < interval) ∧
        (Ticked next.2 ↔ interval ≤ r.past.waited + elapsed) ∧
        (Ticked next.2 → next.1.accumulated = 0 ∧ next.2 = tickReport p r.interpreter) ∧
        (¬Ticked next.2 → next.2 = { interpreter := r.interpreter, result := .ok false })) ∧
      r.past.ticks * interval ≤ times.sum ∧
      (0 < interval → ∀ longest, (∀ time ∈ times, time ≤ longest) →
        times.sum < r.past.ticks * (interval + longest) + interval) ∧
      r.interpreter = (fun it => (it.tick p).interpreter)^[r.past.ticks] it := by
  intro r
  have h : r.Paced p interval it := paced_run p interval it times
  have htimes : r.past.map (·.1) = times := map_past_run p interval it times
  have htotal : r.past.total = times.sum := congrArg List.sum htimes
  refine ⟨fun elapsed => ?_, ?_, fun hpos longest hlong => ?_, h.interpreter_eq⟩
  · refine ⟨?_, ?_, fun ht => ?_, fun hn => ?_⟩
    · exact h.interval_eq ▸ accumulated_update r.pacer elapsed r.interpreter p
    · rw [ticked_iff, h.interval_eq, h.accumulated_eq]
    · rw [update_of_ticked ht]
      exact ⟨rfl, rfl⟩
    · rw [update_of_not_ticked hn]
  · have hle := h.ticks_le
    omega
  · have hpast : ∀ update ∈ r.past, update.1 ≤ longest := fun update hu =>
      hlong update.1 (htimes ▸ List.mem_map_of_mem hu)
    have hle := h.total_le hpos longest hpast
    have hwaited := h.waited_lt hpos
    omega

/-- An interval of 30 that goes by within two updates, and a third update that is far longer. -/
theorem keeps_pace_long_update :
    let p : Program := { code := #[0x02, 0x01, 0x00], entries := [0] }
    let it : Interpreter := { threads := Pool.vacant.put 0 (Thread.start 0 0) }
    let r := run p 30 it [20, 20, 500]
    r.past = [(20, false), (20, true), (500, true)] ∧
      0 < 30 ∧ (∀ time ∈ [20, 20, 500], time ≤ 500) ∧
      [20, 20, 500].sum < r.past.ticks * (30 + 500) + 30 := by
  intro p it r
  have hfirst : run p 30 it [20] =
      { pacer := { interval := 30, accumulated := 20 }, interpreter := it, past := [(20, false)] } :=
    Run.update_of_lt (by decide)
  have hsecond : run p 30 it [20, 20] =
      { pacer := { interval := 30 }, interpreter := (it.tick p).interpreter
        past := [(20, false), (20, true)] } := by
    have hconcat : run p 30 it [20, 20] = (run p 30 it [20]).update p 20 :=
      run_concat p 30 it [20] 20
    rw [hconcat, hfirst]
    exact Run.update_of_le (by decide)
  have hpast : r.past = [(20, false), (20, true), (500, true)] := by
    have hconcat : r = (run p 30 it [20, 20]).update p 500 := run_concat p 30 it [20, 20] 500
    rw [hconcat, hsecond]
    exact congrArg Run.past (Run.update_of_le (by decide))
  have hlong : ∀ time ∈ [20, 20, 500], time ≤ 500 := by decide
  exact ⟨hpast, by decide, hlong, (keeps_pace p 30 it [20, 20, 500]).2.2.1 (by decide) 500 hlong⟩

end Pacer

end RoomScript
