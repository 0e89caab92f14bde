import RoomScript.Instruction
import RoomScript.Operator
import RoomScript.Thread

/-!
# Commands

What an instruction asks for, with its operands read. Commands are grouped by what they may touch:
flow commands the running thread alone, data commands the store alone, event commands the other
threads of the pool. A switch reads the store and moves the thread. All other instructions are
requests to the world or have no effect on the script. A command that has been carried out leaves a
signal: what the dispatch loop is to do next.

A command that cannot be carried out leaves a fault, which stops its thread at the failing instruction.
Most faults carry the position of that instruction; a fault met while a switch looks through its cases
carries the position it had reached.
-/
namespace RoomScript

/-- Moves the running thread. -/
inductive FlowCommand where
  /-- Ends the event, or the subroutine when the thread is in one. -/
  | endEvent
  | ret
  | gosub (event : UInt8)
  | openIf (length : UInt16)
  | openElse (length : UInt16)
  | closeIf
  | sleep (ticks : UInt16)
  | sleeping
  | openFor (length count : UInt16)
  | next
  | closeSwitch
  | breakOut
  | workSet (target : WorkTarget)
  deriving DecidableEq

/-- Reads or changes the store. An operator code that means nothing leaves no operator. -/
inductive DataCommand where
  | checkBit (array bit expected : UInt8)
  | setBit (array bit : UInt8) (op : Option BitOp)
  | compare (id : UInt8) (op : Option CompareOp) (value : Int16)
  | save (id : UInt8) (value : Int16)
  | copy (target source : UInt8)
  | calculate (op : Option CalcOp) (id : UInt8) (value : Int16)
  | calculateFrom (op : Option CalcOp) (id source : UInt8)
  deriving DecidableEq

/-- Starts or kills other threads. -/
inductive EventCommand where
  | exec (slot event : UInt8)
  | kill (slot : UInt8)
  deriving DecidableEq

inductive Command where
  | flow (command : FlowCommand)
  | data (command : DataCommand)
  | event (command : EventCommand)
  | switch (id : UInt8) (length : UInt16)
  /-- Everything else: a request to the world, or nothing. -/
  | world (i : Instruction)
  deriving DecidableEq

/-- What a command leaves the dispatch loop to do. -/
inductive Signal where
  /-- Go on at the thread's position. -/
  | proceed
  /-- A condition failed: leave the innermost conditional block. -/
  | conditionFalse
  /-- Park the thread until the next tick. -/
  | yield
  /-- The thread has ended. -/
  | finish
  deriving DecidableEq

/-- The signal of a condition. -/
def Signal.ofCondition (holds : Bool) : Signal := if holds then .proceed else .conditionFalse

/-- Reads the command of an instruction. Every offset lies within the width of its opcode. -/
def Command.ofInstruction (i : Instruction) : Command :=
  match i.opcode with
  | .evtEnd => .flow .endEvent
  | .evtExec => .event (.exec (i.byte 1) (i.byte 3))
  | .evtKill => .event (.kill (i.byte 1))
  | .ifelCk => .flow (.openIf (i.word 2))
  | .elseCk => .flow (.openElse (i.word 2))
  | .endif => .flow .closeIf
  | .sleep => .flow (.sleep (i.word 2))
  | .sleeping => .flow .sleeping
  | .forLoop => .flow (.openFor (i.word 2) (i.word 4))
  | .next => .flow .next
  | .switch => .switch (i.byte 1) (i.word 2)
  | .eswitch => .flow .closeSwitch
  | .gosub => .flow (.gosub (i.byte 1))
  | .ret => .flow .ret
  | .breakOut => .flow .breakOut
  | .ck => .data (.checkBit (i.byte 1) (i.byte 2) (i.byte 3))
  | .set => .data (.setBit (i.byte 1) (i.byte 2) (BitOp.ofCode? (i.byte 3)))
  | .cmp => .data (.compare (i.byte 2) (CompareOp.ofCode? (i.byte 3)) (i.int 4))
  | .save => .data (.save (i.byte 1) (i.int 2))
  | .copy => .data (.copy (i.byte 1) (i.byte 2))
  | .calculate => .data (.calculate (CalcOp.ofCode? (i.byte 2)) (i.byte 3) (i.int 4))
  | .calculate2 => .data (.calculateFrom (CalcOp.ofCode? (i.byte 1)) (i.byte 2) (i.byte 3))
  | .workSet => .flow (.workSet ⟨WorkKind.ofCode (i.byte 1), i.byte 2⟩)
  | _ => .world i

/-- Why a script cannot go on. -/
inductive Fault where
  | decode (position : Nat) (cause : DecodeError)
  | malformedSwitch (position : Nat) (opcode : UInt8)
  | unknownEvent (event : UInt8)
  | callStackOverflow (position : Nat)
  | callStackUnderflow (position : Nat)
  | jumpStackOverflow (position : Nat)
  | jumpStackUnderflow (position : Nat)
  | loopOverflow (position : Nat)
  | noEnclosingLoop (position : Nat)
  | divisionByZero (position : Nat)
  | invalidThread (slot : Nat)
  deriving DecidableEq

def Fault.message : Fault → String
  | .decode position cause => s!"decode error at {position}: " ++ cause.message
  | .malformedSwitch position opcode =>
    "unexpected opcode 0x" ++ hexByte opcode ++ s!" in switch scan at {position}"
  | .unknownEvent event => s!"unknown event {event}"
  | .callStackOverflow position => s!"call stack overflow at {position}"
  | .callStackUnderflow position => s!"return with empty call stack at {position}"
  | .jumpStackOverflow position => s!"jump stack overflow at {position}"
  | .jumpStackUnderflow position => s!"jump stack underflow at {position}"
  | .loopOverflow position => s!"loop nesting overflow at {position}"
  | .noEnclosingLoop position => s!"no enclosing loop at {position}"
  | .divisionByZero position => s!"division by zero at {position}"
  | .invalidThread slot => s!"thread slot {slot} out of range"

end RoomScript
