import RoomScript.Layout
import RoomScript.Opcode

/-!
# Instructions

An instruction is an opcode byte followed by its operands, as many as the opcode's width leaves
room for. Decoding reads the instruction that starts at a position of the code; it fails when there
is no byte, when the byte is no opcode, or when the code ends inside the instruction. A block of
script code is read from bytes as well, so its two faults stand here beside these three.
-/
namespace RoomScript

/-- Why script bytes cannot be read. -/
inductive DecodeError where
  | unknownOpcode (byte : UInt8)
  | truncated (opcode : UInt8) (width available : Nat)
  | outOfBounds (position : Nat)
  | invalidLength (length : Nat)
  | invalidOffset (index offset length : Nat)
  deriving DecidableEq

def DecodeError.message : DecodeError → String
  | .unknownOpcode byte => "unknown opcode: 0x" ++ hexByte byte
  | .truncated opcode width available =>
    "truncated instruction 0x" ++ hexByte opcode ++
      s!": needs {width} bytes, {available} available"
  | .outOfBounds position => s!"program counter {position} is past the end of the code"
  | .invalidLength length => s!"invalid script block length: {length}"
  | .invalidOffset index offset length =>
    s!"invalid offset {offset} for function {index} (block is {length} bytes)"

/-- One instruction with all the operand bytes its width asks for. -/
structure Instruction where
  opcode : Opcode
  operands : List UInt8
  length_operands : operands.length + 1 = opcode.width
  deriving DecidableEq

namespace Instruction

/-- The instruction that starts at a position of the code. -/
def decodeAt (code : Array UInt8) (position : Nat) : Except DecodeError Instruction :=
  match code[position]? with
  | none => .error (.outOfBounds position)
  | some byte =>
    match Opcode.ofByte? byte with
    | none => .error (.unknownOpcode byte)
    | some opcode =>
      let operands := (code.extract (position + 1) (position + opcode.width)).toList
      if h : operands.length + 1 = opcode.width then
        .ok ⟨opcode, operands, h⟩
      else
        .error (.truncated byte opcode.width (code.size - position))

def width (i : Instruction) : Nat := i.opcode.width

/-- The encoded instruction, opcode byte first. -/
def bytes (i : Instruction) : List UInt8 := i.opcode.byte :: i.operands

@[simp] theorem length_bytes (i : Instruction) : i.bytes.length = i.width := by
  simp [bytes, width, i.length_operands]

theorem width_pos (i : Instruction) : 0 < i.width := i.opcode.width_pos

/-- The byte at an offset from the opcode byte, if the instruction is that wide. -/
def byte? (i : Instruction) (offset : Nat) : Option UInt8 := i.bytes[offset]?

/-- The word at an offset, if both its bytes lie inside the instruction. -/
def word? (i : Instruction) (offset : Nat) : Option UInt16 := do
  return wordOf (← i.byte? offset) (← i.byte? (offset + 1))

/-- The signed word at an offset, if both its bytes lie inside the instruction. -/
def int? (i : Instruction) (offset : Nat) : Option Int16 := (i.word? offset).map (·.toInt16)

/-- The byte at an offset that the opcode is known to reach. Farther offsets give zero, and nothing
in this library asks for one. -/
def byte (i : Instruction) (offset : Nat) : UInt8 := i.bytes.getD offset 0

/-- The word at an offset that the opcode is known to reach. -/
def word (i : Instruction) (offset : Nat) : UInt16 :=
  wordOf (i.byte offset) (i.byte (offset + 1))

/-- The signed word at an offset that the opcode is known to reach. -/
def int (i : Instruction) (offset : Nat) : Int16 := (i.word offset).toInt16

theorem byte?_eq_some {i : Instruction} {offset : Nat} (h : offset < i.width) :
    i.byte? offset = some (i.byte offset) := by
  rw [← i.length_bytes] at h
  simp [byte?, byte, List.getElem?_eq_getElem h]

theorem byte?_eq_none_iff {i : Instruction} {offset : Nat} :
    i.byte? offset = none ↔ i.width ≤ offset := by
  simp [byte?]

theorem word?_eq_some {i : Instruction} {offset : Nat} (h : offset + 1 < i.width) :
    i.word? offset = some (i.word offset) := by
  simp [word?, word, byte?_eq_some h, byte?_eq_some (Nat.lt_of_succ_lt h)]

theorem int?_eq_some {i : Instruction} {offset : Nat} (h : offset + 1 < i.width) :
    i.int? offset = some (i.int offset) := by
  simp [int?, int, word?_eq_some h]

theorem decodeAt_eq_outOfBounds {code : Array UInt8} {position : Nat} (h : code.size ≤ position) :
    decodeAt code position = .error (.outOfBounds position) := by
  simp [decodeAt, Array.getElem?_eq_none h]

/-- A decoded instruction starts inside the code. -/
theorem lt_size_of_decodeAt {code : Array UInt8} {position : Nat} {i : Instruction}
    (h : decodeAt code position = .ok i) : position < code.size := by
  rcases Nat.lt_or_ge position code.size with hp | hp
  · exact hp
  · simp [decodeAt_eq_outOfBounds hp] at h

end Instruction

end RoomScript
