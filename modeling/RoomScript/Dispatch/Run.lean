import RoomScript.Dispatch.Command
import RoomScript.World

/-!
# The dispatch loop

A machine is everything a running thread can reach: the thread itself, the pool, the store and the
calls made to the world. The thread's own slot in the pool is neither read nor written while the
thread runs. One step carries out the instruction at the thread's position. Bytes that are no opcode
are passed over one at a time. A thread whose instruction fails stays on that instruction, so that
running it again meets the same instruction again.

A run steps until the thread sleeps, waits, ends or fails. It is given a number of steps that no run
needs. Within one run a thread only gets forward in a lexicographic order: a call level is a stack of
at most four open loops, each of them bounded by its counter, and inside the innermost loop a position
only returns to the target of an open block by closing that block for good. So each of the four call
levels has five rows of nine positions and a counter, one row outside all loops and one for each loop,
and every step raises the first of these that it changes.
-/
namespace RoomScript

/-- How a run of a thread ends. -/
inductive Outcome where
  /-- The thread sleeps until the next tick. -/
  | suspended
  /-- A condition failed outside all blocks; the thread tests it again at the next tick. -/
  | unwound
  | terminated
  /-- The step budget ran out. -/
  | exhausted
  deriving DecidableEq

structure Machine where
  thread : Thread
  pool : Pool
  store : Store
  /-- The calls made so far, first to last. -/
  calls : Array WorldCall := #[]
  deriving DecidableEq

/-- Where a machine is after a step. -/
inductive Progress where
  | running (m : Machine)
  | stopped (m : Machine) (result : Except Fault Outcome)

namespace Machine

/-- Moves the running thread to a position. -/
def goto (m : Machine) (position : Nat) : Machine :=
  { m with thread := { m.thread with pc := position } }

/-- Parks the running thread until the next tick. -/
def park (m : Machine) : Machine := { m with thread := { m.thread with status := .suspended } }

/-- Carries out a command. `position` is where its instruction stands; the thread is already behind
it. -/
def execute (p : Program) (slot : Slot) (position : Nat) (m : Machine) :
    Command → Machine × Except Fault Signal
  | .flow command =>
    match command.run p position m.thread with
    | .ok (thread, signal) => ({ m with thread }, .ok signal)
    | .error fault => (m, .error fault)
  | .data command =>
    let (store, result) := command.run position m.store
    ({ m with store }, result)
  | .event command =>
    match command.run p slot m.pool with
    | .ok (pool, signal) => ({ m with pool }, .ok signal)
    | .error fault => (m, .error fault)
  | .switch id length =>
    let (value, store) := m.store.readVar id
    let (thread, result) := m.thread.switch p.code position value length
    ({ m with thread, store }, result.map fun _ => .proceed)
  | .world i =>
    match WorldCall.ofInstruction? m.thread.work i with
    | some call => ({ m with calls := m.calls.push call }, .ok .proceed)
    | none => (m, .ok .proceed)

/-- What a failed condition does: the innermost conditional block is left, together with the loops
opened in it; without an open block the thread waits at the condition. -/
def unwind (position : Nat) (m : Machine) : Progress :=
  if m.thread.level.openBlocks = 0 then
    .stopped (m.goto position).park (.ok .unwound)
  else
    match m.thread.level.closeBlock? with
    | none => .stopped (m.goto position) (.error (.jumpStackUnderflow position))
    | some (target, level) =>
      .running { m with thread := { m.thread.setLevel level.dropExitedLoops with pc := target } }

/-- What the loop does after an instruction at `position`. -/
def settle (position : Nat) (m : Machine) : Except Fault Signal → Progress
  | .ok .proceed => .running m
  | .ok .conditionFalse => m.unwind position
  | .ok .yield => .stopped m.park (.ok .suspended)
  | .ok .finish => .stopped { m with thread := Thread.dead } (.ok .terminated)
  | .error fault => .stopped (m.goto position) (.error fault)

/-- Carries out the instruction at the thread's position. -/
def step (p : Program) (slot : Slot) (m : Machine) : Progress :=
  let position := m.thread.pc
  match p.instructionAt position with
  | .error (.unknownOpcode _) => .running (m.goto (position + 1))
  | .error cause => .stopped m (.error (.decode position cause))
  | .ok i =>
    let (m, result) :=
      (m.goto (position + i.width)).execute p slot position (Command.ofInstruction i)
    m.settle position result

end Machine

namespace Program

/-- How many values a position or a counter of the order can take. -/
def rankBase (p : Program) : Nat := 2 * p.code.size + 65540

/-- More steps than a run takes. -/
def stepBudget (p : Program) : Nat :=
  Nat.pow p.rankBase (maxCallLevels * ((loopSlots + 1) * (jumpStackDepth + 2)))

end Program

namespace Machine

/-- Steps at most `budget` times. -/
def runFor (p : Program) (slot : Slot) : (budget : Nat) → Machine → Machine × Except Fault Outcome
  | 0, m => (m, .ok .exhausted)
  | budget + 1, m =>
    match m.step p slot with
    | .running m => runFor p slot budget m
    | .stopped m result => (m, result)

/-- Runs the thread until it stops. -/
def run (p : Program) (slot : Slot) (m : Machine) : Machine × Except Fault Outcome :=
  runFor p slot p.stepBudget { m with thread := { m.thread with status := .running } }

theorem run_eq (p : Program) (slot : Slot) (m : Machine) :
    m.run p slot =
      { m with thread := { m.thread with status := .running } }.runFor p slot p.stepBudget := rfl

-- The budget is far too large for anything to look at a run by evaluating it.
attribute [irreducible] run

theorem runFor_of_running {p : Program} {slot : Slot} {m m' : Machine} {budget : Nat}
    (h : m.step p slot = .running m') : m.runFor p slot (budget + 1) = m'.runFor p slot budget := by
  simp [runFor, h]

theorem runFor_of_stopped {p : Program} {slot : Slot} {m m' : Machine} {budget : Nat}
    {result : Except Fault Outcome} (h : m.step p slot = .stopped m' result) :
    m.runFor p slot (budget + 1) = (m', result) := by
  simp [runFor, h]

end Machine

end RoomScript
