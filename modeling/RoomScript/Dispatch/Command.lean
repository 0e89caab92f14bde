import RoomScript.Command
import RoomScript.Program
import RoomScript.Store

/-!
# Carrying out commands

Flow commands see the program and the running thread and change nothing but that thread. Data commands
see and change nothing but the store: a check or a comparison decides whether its conditional block goes
on, and a command with an unknown operator changes no value; as a comparison it is false. Event commands
start and kill the threads of other slots. A thread cannot replace itself, and an event that finds no
place is not started; a thread that kills its own slot ends.

The thread's position is already behind the instruction when its command is carried out; `position` is
where the instruction itself stands. A flow or event command that fails changes nothing.

A switch opens a loop slot and looks through its cases from the first instruction of its body on,
hopping from header to header by the lengths of the case bodies. It lands behind the header of the
first case with the switched value, or behind a default. When it meets the end of the switch first,
it closes its slot again and goes on there. Any other instruction in that walk breaks the switch. The
walk goes forward only, so it ends.
-/
namespace RoomScript

/-- Opens a conditional block over the next `length` bytes. -/
def Thread.openIf (t : Thread) (position : Nat) (length : UInt16) :
    Except Fault (Thread × Signal) :=
  match t.level.openBlock? (t.pc + length.toNat) with
  | some level => .ok (t.setLevel level, .proceed)
  | none => .error (.jumpStackOverflow position)

/-- Closes the innermost conditional block and skips the next `length` bytes. -/
def Thread.closeIf (t : Thread) (position : Nat) (length : UInt16) :
    Except Fault (Thread × Signal) :=
  match t.level.closeBlock? with
  | some (_, level) =>
    .ok ({ t.setLevel level with pc := t.pc + length.toNat }, .proceed)
  | none => .error (.jumpStackUnderflow position)

/-- Opens a loop or a sleep whose body starts here; leaving it early resumes at `breakTarget`. -/
def Thread.openLoop (t : Thread) (position : Nat) (counter : UInt16) (breakTarget : Nat) :
    Except Fault (Thread × Signal) :=
  let slot : LoopSlot :=
    { counter, breakTarget, savedBlocks := t.level.openBlocks, loopStart := t.pc }
  match t.level.pushLoop? slot with
  | some level => .ok (t.setLevel level, .proceed)
  | none => .error (.loopOverflow position)

/-- Returns from a subroutine. -/
def Thread.leave (t : Thread) (position : Nat) : Except Fault (Thread × Signal) :=
  match t.return? with
  | some t => .ok (t, .proceed)
  | none => .error (.callStackUnderflow position)

namespace FlowCommand

/-- Carries out a flow command on the running thread. -/
def run (p : Program) (position : Nat) (t : Thread) :
    FlowCommand → Except Fault (Thread × Signal)
  | .endEvent => if t.depth.val = 0 then .ok (t, .finish) else t.leave position
  | .ret => t.leave position
  | .gosub event =>
    match p.entry? event with
    | none => .error (.unknownEvent event)
    | some entry =>
      match t.call? entry event with
      | some t => .ok (t, .proceed)
      | none => .error (.callStackOverflow position)
  | .openIf length => t.openIf position length
  | .openElse length => t.closeIf position length
  | .closeIf => t.closeIf position 0
  | .sleep ticks => t.openLoop position ticks t.pc
  | .sleeping =>
    match t.level.currentLoop? with
    | none => .error (.noEnclosingLoop position)
    | some slot =>
      if slot.counter = 0 then
        .ok (t.setLevel t.level.popLoop, .proceed)
      else
        let level := t.level.setLoop { slot with counter := slot.counter - 1 }
        .ok ({ t.setLevel level with pc := position }, .yield)
  | .openFor length count =>
    if count = 0 then
      .ok ({ t with pc := t.pc + length.toNat }, .proceed)
    else
      t.openLoop position count (t.pc + length.toNat)
  | .next =>
    match t.level.currentLoop? with
    | none => .error (.noEnclosingLoop position)
    | some slot =>
      if 1 < slot.counter then
        let level := t.level.setLoop { slot with counter := slot.counter - 1 }
        .ok ({ t.setLevel level with pc := slot.loopStart }, .proceed)
      else
        let level := t.level.setLoop { slot with counter := 0 }
        .ok (t.setLevel level.popLoop, .proceed)
  | .closeSwitch =>
    match t.level.currentLoop? with
    | none => .error (.noEnclosingLoop position)
    | some _ => .ok (t.setLevel t.level.popLoop, .proceed)
  | .breakOut =>
    match t.level.currentLoop? with
    | none => .error (.noEnclosingLoop position)
    | some slot =>
      let level := { t.level with openBlocks := slot.savedBlocks }.resyncJumpTop.popLoop
      .ok ({ t.setLevel level with pc := slot.breakTarget }, .proceed)
  | .workSet target => .ok ({ t with work := target }, .proceed)

end FlowCommand

/-- Gives a variable the value of an operation on it. -/
def Store.calculate (s : Store) (position : Nat) (op : CalcOp) (id : UInt8) (rhs : Int16) :
    Store × Except Fault Signal :=
  let (lhs, s) := s.readVar id
  match op.eval? lhs rhs with
  | some value => (s.setVar id value, .ok .proceed)
  | none => (s, .error (.divisionByZero position))

namespace DataCommand

/-- Carries out a data command on the store. -/
def run (position : Nat) (s : Store) : DataCommand → Store × Except Fault Signal
  | .checkBit array bit expected =>
    let (value, s) := s.readFlag array bit
    (s, .ok (.ofCondition (value.toUInt8 = expected)))
  | .setBit _ _ none => (s, .ok .proceed)
  | .setBit array bit (some .clear) => (s.setFlag array bit false, .ok .proceed)
  | .setBit array bit (some .set) => (s.setFlag array bit true, .ok .proceed)
  | .setBit array bit (some .flip) => ((s.flipFlag array bit).2, .ok .proceed)
  | .compare _ none _ => (s, .ok .conditionFalse)
  | .compare id (some op) value =>
    let (lhs, s) := s.readVar id
    (s, .ok (.ofCondition (op.test lhs value)))
  | .save id value => (s.setVar id value, .ok .proceed)
  | .copy target source =>
    let (value, s) := s.readVar source
    (s.setVar target value, .ok .proceed)
  | .calculate none _ _ => (s, .ok .proceed)
  | .calculate (some op) id value => s.calculate position op id value
  | .calculateFrom none _ source => ((s.readVar source).2, .ok .proceed)
  | .calculateFrom (some op) id source =>
    let (value, s) := s.readVar source
    s.calculate position op id value

end DataCommand

namespace EventCommand

/-- Carries out an event command of the thread in slot `running`. -/
def run (p : Program) (running : Slot) (pool : Pool) :
    EventCommand → Except Fault (Pool × Signal)
  | .exec slot event =>
    match p.entry? event with
    | none => .error (.unknownEvent event)
    | some entry =>
      match pool.place? (some running) slot with
      | some place => .ok (pool.put place (Thread.start entry event), .proceed)
      | none => .ok (pool, .proceed)
  | .kill slot =>
    if slot.toNat = running.val then
      .ok (pool, .finish)
    else
      match Pool.slot? slot.toNat with
      | some target => .ok (pool.kill target, .proceed)
      | none => .ok (pool, .proceed)

end EventCommand

/-- Where a switch goes on. -/
inductive Landing where
  /-- In the body of a case or of the default. -/
  | body (position : Nat)
  /-- Behind the end of the switch, as no case was taken. -/
  | past (position : Nat)
  deriving DecidableEq

namespace Landing

/-- The landing of a switch over `value` whose next header is at `position`. -/
def find (code : Array UInt8) (value : Int16) (position : Nat) : Except Fault Landing :=
  match _h : Instruction.decodeAt code position with
  | .error (.unknownOpcode byte) => .error (.malformedSwitch position byte)
  | .error cause => .error (.decode position cause)
  | .ok header =>
    let behind := position + header.width
    match header.opcode with
    | .case =>
      if header.int 4 = value then
        .ok (.body behind)
      else
        find code value (behind + (header.word 2).toNat)
    | .default => .ok (.body behind)
    | .eswitch => .ok (.past behind)
    | other => .error (.malformedSwitch position other.byte)
termination_by code.size - position
decreasing_by
  have := Instruction.lt_size_of_decodeAt _h
  have := header.width_pos
  omega

theorem find_of_case {code : Array UInt8} {value : Int16} {position : Nat} {header : Instruction}
    (h : Instruction.decodeAt code position = .ok header) (hc : header.opcode = .case) :
    find code value position =
      if header.int 4 = value then .ok (.body (position + header.width))
      else find code value (position + header.width + (header.word 2).toNat) := by
  rw [find]
  split <;> simp_all

end Landing

/-- Takes the running thread into a switch over `value` that spans the next `length` bytes. A switch
that cannot find its landing has already opened its slot. -/
def Thread.switch (t : Thread) (code : Array UInt8) (position : Nat) (value : Int16)
    (length : UInt16) : Thread × Except Fault Unit :=
  let slot : LoopSlot :=
    { breakTarget := t.pc + length.toNat, savedBlocks := t.level.openBlocks, loopStart := t.pc }
  match t.level.pushLoop? slot with
  | none => (t, .error (.loopOverflow position))
  | some level =>
    let opened := t.setLevel level
    match Landing.find code value t.pc with
    | .error fault => (opened, .error fault)
    | .ok (.body target) => ({ opened with pc := target }, .ok ())
    | .ok (.past target) => ({ opened.setLevel level.popLoop with pc := target }, .ok ())

end RoomScript
