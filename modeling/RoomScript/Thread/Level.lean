/-!
# Call levels

A call level is the block structure of one subroutine call: which conditional blocks are open, where
each of them resumes when its condition fails, and which loops, switches and sleeps are open. Both
stacks have fixed room. Closing a block or a loop only lowers its count; the entry stays in place
above the top, because leaving a loop early restores the number of open blocks the loop started with,
and the entries above the top are then in use again.
-/
namespace RoomScript

/-- Conditional blocks that one call level can hold open. -/
abbrev jumpStackDepth : Nat := 8

/-- Loops, switches and sleeps that one call level can hold open. -/
abbrev loopSlots : Nat := 4

/-- One open loop, switch or sleep. -/
structure LoopSlot where
  /-- Iterations left, or ticks left of a sleep. -/
  counter : UInt16 := 0
  /-- Where leaving the loop early resumes. -/
  breakTarget : Nat := 0
  /-- How many conditional blocks were open when the loop opened. -/
  savedBlocks : Nat := 1
  /-- The first instruction of the loop's body. -/
  loopStart : Nat := 0
  deriving DecidableEq

structure CallLevel where
  /-- How many conditional blocks are open. -/
  openBlocks : Nat := 0
  /-- How many loops, switches and sleeps are open. -/
  openLoops : Nat := 0
  /-- Where the caller resumes. -/
  returnAddress : Nat := 0
  /-- Where each open conditional block resumes when its condition fails. -/
  jumpStack : Vector Nat jumpStackDepth := Vector.replicate jumpStackDepth 0
  /-- The next free entry of the jump stack. -/
  jumpTop : Nat := 0
  loops : Vector LoopSlot loopSlots := Vector.replicate loopSlots {}
  deriving DecidableEq

namespace CallLevel

/-- Opens a conditional block that resumes at `target` when its condition fails. -/
def openBlock? (l : CallLevel) (target : Nat) : Option CallLevel :=
  if h : l.jumpTop < jumpStackDepth then
    some { l with
      jumpStack := l.jumpStack.set l.jumpTop target h
      jumpTop := l.jumpTop + 1
      openBlocks := l.openBlocks + 1 }
  else
    none

/-- Closes the innermost conditional block and gives its target. -/
def closeBlock? (l : CallLevel) : Option (Nat × CallLevel) :=
  if l.jumpTop = 0 ∨ l.openBlocks = 0 then
    none
  else
    some (l.jumpStack[l.jumpTop - 1]?.getD 0,
      { l with jumpTop := l.jumpTop - 1, openBlocks := l.openBlocks - 1 })

/-- Lets the top of the jump stack follow the number of open blocks. -/
def resyncJumpTop (l : CallLevel) : CallLevel := { l with jumpTop := l.openBlocks }

/-- Opens a loop, switch or sleep. -/
def pushLoop? (l : CallLevel) (slot : LoopSlot) : Option CallLevel :=
  if h : l.openLoops < loopSlots then
    some { l with loops := l.loops.set l.openLoops slot h, openLoops := l.openLoops + 1 }
  else
    none

/-- The innermost open loop, switch or sleep. -/
def currentLoop? (l : CallLevel) : Option LoopSlot :=
  if l.openLoops = 0 then none else l.loops[l.openLoops - 1]?

/-- Replaces the innermost open loop, switch or sleep. -/
def setLoop (l : CallLevel) (slot : LoopSlot) : CallLevel :=
  { l with loops := l.loops.setIfInBounds (l.openLoops - 1) slot }

def popLoop (l : CallLevel) : CallLevel := { l with openLoops := l.openLoops - 1 }

/-- How many of the `n` outermost loops stay open when only `blocks` conditional blocks do: inner
loops that were opened under more blocks are dropped, up to the first that was not. -/
def loopsUnder (loops : Vector LoopSlot loopSlots) (blocks : Nat) : Nat → Nat
  | 0 => 0
  | n + 1 =>
    if blocks < (loops[n]?.getD {}).savedBlocks then loopsUnder loops blocks n else n + 1

/-- Drops the loops that were opened inside blocks which have been closed since. -/
def dropExitedLoops (l : CallLevel) : CallLevel :=
  { l with openLoops := loopsUnder l.loops l.openBlocks l.openLoops }

/-- The targets of the open conditional blocks, outermost first. -/
def jumps (l : CallLevel) : List Nat := l.jumpStack.toList.take l.jumpTop

/-- The open loops, switches and sleeps, outermost first. -/
def loopList (l : CallLevel) : List LoopSlot := l.loops.toList.take l.openLoops

end CallLevel

end RoomScript
