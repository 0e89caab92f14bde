import RoomScript.Interpreter

/-!
# Sessions

A host drives an interpreter by requests, one after another, and hands the program over with each. A
session is a list of requests with the answers to them; an interpreter is reachable when a session
that starts from a fresh one leads to it. Different requests may come with different programs, since
an interpreter outlives the room it is in.
-/
namespace RoomScript

/-- What a host asks of the store. A flag is written as a byte: any byte but zero sets it. -/
inductive StoreRequest where
  | flag (array bit : UInt8)
  | setFlag (array bit value : UInt8)
  | flipFlag (array bit : UInt8)
  | var (id : UInt8)
  | setVar (id : UInt8) (value : Int16)
  | clear
  deriving DecidableEq

inductive Request where
  /-- Starts an event on the lowest dead slot. -/
  | startEvent (event : UInt8)
  | tick
  /-- Runs the thread in the slot with a number. -/
  | runThread (number : Nat)
  | resetThreads
  | reset
  | store (request : StoreRequest)
  deriving DecidableEq

inductive Answer where
  | done
  | started (slot : Option Slot)
  | ran (outcome : Outcome)
  | flag (value : Bool)
  | var (value : Int16)
  deriving DecidableEq

/-- Serves a request to the store. -/
def Store.serve (s : Store) : StoreRequest → Store × Answer
  | .flag array bit => ((s.readFlag array bit).2, .flag (s.readFlag array bit).1)
  | .setFlag array bit value => (s.setFlag array bit (value ≠ 0), .done)
  | .flipFlag array bit => ((s.flipFlag array bit).2, .flag (s.flipFlag array bit).1)
  | .var id => ((s.readVar id).2, .var (s.readVar id).1)
  | .setVar id value => (s.setVar id value, .done)
  | .clear => (s.clear, .done)

namespace Interpreter

/-- Serves one request. A request that fails leaves the interpreter as the failing operation does. -/
def serve (it : Interpreter) (p : Program) : Request → Report Answer
  | .startEvent event =>
    match it.startEvent p event with
    | .ok (it, slot) => { interpreter := it, result := .ok (.started slot) }
    | .error fault => { interpreter := it, result := .error fault }
  | .tick => { it.tick p with result := (it.tick p).result.map fun _ => .done }
  | .runThread number =>
    { it.runThread p number with result := (it.runThread p number).result.map .ran }
  | .resetThreads => { interpreter := it.resetThreads, result := .ok .done }
  | .reset => { interpreter := it.reset, result := .ok .done }
  | .store request =>
    { interpreter := { it with store := (it.store.serve request).1 }
      result := .ok (it.store.serve request).2 }

/-- The interpreters to which sessions over some programs lead. -/
inductive Reachable (programs : Program → Prop) : Interpreter → Prop
  | fresh : Reachable programs {}
  | serve {it : Interpreter} {p : Program} (request : Request) (hp : programs p) :
      Reachable programs it → Reachable programs (it.serve p request).interpreter

/-- The reports of a session over one program, first to last. -/
def session (p : Program) : Interpreter → List Request → List (Report Answer)
  | _, [] => []
  | it, request :: rest =>
      it.serve p request :: session p (it.serve p request).interpreter rest

/-- A session over any programs from one set is one over any programs from a larger one. -/
theorem Reachable.mono {programs more : Program → Prop} {it : Interpreter}
    (h : Reachable programs it) (hm : ∀ p, programs p → more p) : Reachable more it := by
  induction h with
  | fresh => exact .fresh
  | serve request hp _ ih => exact .serve request (hm _ hp) ih

/-- Running a thread is one of the requests, whatever it answers. -/
theorem Reachable.runThread {programs : Program → Prop} {it : Interpreter} {p : Program}
    (h : Reachable programs it) (hp : programs p) (number : Nat) :
    Reachable programs (it.runThread p number).interpreter :=
  .serve (.runThread number) hp h

end Interpreter

end RoomScript
