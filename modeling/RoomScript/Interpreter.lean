import RoomScript.Dispatch.Run

/-!
# The interpreter

The interpreter keeps the pool of threads and the store between ticks. Programs and the world belong
to the host, who passes the program to each operation and gets back the calls made to the world.
-/
namespace RoomScript

structure Interpreter where
  threads : Pool := Pool.vacant
  store : Store := {}
  deriving DecidableEq

/-- What an operation leaves behind: the interpreter, the calls it made and its result. -/
structure Report (α : Type) where
  interpreter : Interpreter
  calls : Array WorldCall := #[]
  result : Except Fault α

namespace Interpreter

/-- Starts an event on the lowest dead slot and gives that slot, if there is one. -/
def startEvent (it : Interpreter) (p : Program) (event : UInt8) :
    Except Fault (Interpreter × Option Slot) :=
  match p.entry? event with
  | none => .error (.unknownEvent event)
  | some entry =>
    match it.threads.place? none anySlot with
    | none => .ok (it, none)
    | some slot =>
      .ok ({ it with threads := it.threads.put slot (Thread.start entry event) }, some slot)

/-- Kills all threads. -/
def resetThreads (it : Interpreter) : Interpreter := { it with threads := Pool.vacant }

/-- Kills all threads and clears the store. -/
def reset (it : Interpreter) : Interpreter := { it.resetThreads with store := it.store.clear }

/-- Runs the thread in a slot until it stops. -/
def runSlot (it : Interpreter) (p : Program) (slot : Slot) : Report Outcome :=
  let thread := it.threads.thread slot
  if thread.isAlive then
    let ran := Machine.run p slot { thread, pool := it.threads, store := it.store }
    { interpreter := { threads := ran.1.pool.put slot ran.1.thread, store := ran.1.store }
      calls := ran.1.calls
      result := ran.2 }
  else
    { interpreter := it, result := .ok .terminated }

/-- Runs the thread in the slot with a number. -/
def runThread (it : Interpreter) (p : Program) (number : Nat) : Report Outcome :=
  match Pool.slot? number with
  | some slot => it.runSlot p slot
  | none => { interpreter := it, result := .error (.invalidThread number) }

/-- Runs the live threads of some slots in order, up to the first fault. -/
def tickSlots (p : Program) : List Slot → Interpreter → Report Unit
  | [], it => { interpreter := it, result := .ok () }
  | slot :: rest, it =>
    if (it.threads.thread slot).isAlive then
      let ran := it.runSlot p slot
      match ran.result with
      | .error fault => { ran with result := .error fault }
      | .ok _ =>
        let later := tickSlots p rest ran.interpreter
        { later with calls := ran.calls ++ later.calls }
    else
      tickSlots p rest it

/-- Runs every live thread once, from the lowest slot to the highest. A thread started during the tick
runs in the same tick if its turn is still to come. -/
def tick (it : Interpreter) (p : Program) : Report Unit :=
  tickSlots p (List.finRange maxThreads) it

end Interpreter

end RoomScript
