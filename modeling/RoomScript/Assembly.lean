import RoomScript.Instruction
import RoomScript.Operator

/-!
# Assembly

Script code is written line by line. A line is an opcode with the operands in front of the zeros that
fill its width. A line that opens a block leaves the block's length open; the length is filled in when
the block is closed, by the number of bytes between the end of the opening instruction and the end of
the code at that time:

* an `IFEL_CK` block spans its body and the `ELSE_CK` or `ENDIF` that ends it;
* an `ELSE_CK` block spans the else-body, which no `ENDIF` ends;
* a `FOR` block spans its body and the `NEXT` that ends it;
* a `SWITCH` block spans all cases and the `ESWITCH` that ends it;
* a `CASE` block spans the body of the case.

A step that fails keeps what it had already written.
-/
namespace RoomScript

/-- One instruction to be written, without the zeros that fill its width. -/
structure Line where
  opcode : Opcode
  operands : List UInt8 := []
  deriving DecidableEq

namespace Line

/-- The bytes of a line, filled with zeros to the width of its opcode. -/
def encode (l : Line) : List UInt8 :=
  l.opcode.byte :: l.operands ++ List.replicate (l.opcode.width - 1 - l.operands.length) 0

/-- The operands leave room for the opcode byte. -/
def Fits (l : Line) : Prop := l.operands.length < l.opcode.width

instance (l : Line) : Decidable l.Fits := inferInstanceAs (Decidable (_ < _))

theorem length_encode {l : Line} (h : l.Fits) : l.encode.length = l.opcode.width := by
  simp only [Fits] at h
  simp only [encode, List.length_append, List.length_cons, List.length_replicate]
  omega

/-- How many bytes lines take. -/
def extent : List Line → Nat
  | [] => 0
  | l :: lines => l.opcode.width + extent lines

@[simp] theorem extent_nil : extent [] = 0 := rfl

@[simp] theorem extent_cons (l : Line) (lines : List Line) :
    extent (l :: lines) = l.opcode.width + extent lines := rfl

@[simp] theorem extent_append (lines lines' : List Line) :
    extent (lines ++ lines') = extent lines + extent lines' := by
  induction lines with
  | nil => simp
  | cons l lines ih => simp [ih, Nat.add_assoc]

/-- The bytes of lines. -/
def encodeAll (lines : List Line) : List UInt8 := lines.flatMap encode

@[simp] theorem encodeAll_nil : encodeAll [] = [] := rfl

@[simp] theorem encodeAll_cons (l : Line) (lines : List Line) :
    encodeAll (l :: lines) = l.encode ++ encodeAll lines := rfl

@[simp] theorem encodeAll_append (lines lines' : List Line) :
    encodeAll (lines ++ lines') = encodeAll lines ++ encodeAll lines' := by
  simp [encodeAll]

theorem length_encodeAll {lines : List Line} (h : ∀ l ∈ lines, l.Fits) :
    (encodeAll lines).length = extent lines := by
  induction lines with
  | nil => rfl
  | cons l lines ih =>
      rw [encodeAll_cons, extent_cons, List.length_append, length_encode (h l (by simp)),
        ih fun l' hl' => h l' (by simp [hl'])]

/-- The instruction that a line is written as. Only a line that does not fit loses operands. -/
def instruction (l : Line) : Instruction where
  opcode := l.opcode
  operands := (l.operands ++ List.replicate (l.opcode.width - 1) 0).take (l.opcode.width - 1)
  length_operands := by
    have hw := l.opcode.width_pos
    rw [List.length_take, List.length_append, List.length_replicate]
    omega

@[simp] theorem opcode_instruction (l : Line) : l.instruction.opcode = l.opcode := rfl

@[simp] theorem width_instruction (l : Line) : l.instruction.width = l.opcode.width := rfl

theorem bytes_instruction {l : Line} (h : l.Fits) : l.instruction.bytes = l.encode := by
  unfold Fits at h
  have htake : ∀ k, l.operands.length + k = l.opcode.width - 1 →
      (l.operands ++ List.replicate (l.opcode.width - 1) (0 : UInt8)).take (l.opcode.width - 1) =
        l.operands ++ List.replicate k 0 := by
    intro k hk
    rw [← hk, List.take_append, List.take_replicate, List.take_of_length_le (Nat.le_add_right _ _),
      Nat.add_sub_cancel_left, Nat.min_eq_left (Nat.le_add_left _ _)]
  simp only [Instruction.bytes, instruction, encode, List.cons_append,
    htake (l.opcode.width - 1 - l.operands.length) (by omega)]

def nop : Line := { opcode := .nop }

def evtEnd : Line := { opcode := .evtEnd }

/-- Starts an event on a thread slot; the slot byte `0xff` asks for the first dead slot. -/
def evtExec (slot event : UInt8) : Line :=
  { opcode := .evtExec, operands := [slot, Opcode.gosub.byte, event] }

def evtKill (slot : UInt8) : Line := { opcode := .evtKill, operands := [slot] }

def gosub (event : UInt8) : Line := { opcode := .gosub, operands := [event] }

def ret : Line := { opcode := .ret }

/-- A countdown and the instruction that waits for its end. -/
def sleep (ticks : UInt16) : List Line :=
  [{ opcode := .sleep, operands := Opcode.sleeping.byte :: wordBytes ticks },
    { opcode := .sleeping, operands := wordBytes ticks }]

def ifelCk : Line := { opcode := .ifelCk }

def elseCk : Line := { opcode := .elseCk }

def forLoop (count : UInt16) : Line :=
  { opcode := .forLoop, operands := [0, 0, 0] ++ wordBytes count }

def switch (var : UInt8) : Line := { opcode := .switch, operands := [var] }

def case (value : Int16) : Line :=
  { opcode := .case, operands := [0, 0, 0] ++ wordBytes value.toUInt16 }

def default : Line := { opcode := .default }

def breakOut : Line := { opcode := .breakOut }

def goto : Line := { opcode := .goto }

def checkBit (array bit expected : UInt8) : Line :=
  { opcode := .ck, operands := [array, bit, expected] }

def setBit (array bit : UInt8) (op : BitOp) : Line :=
  { opcode := .set, operands := [array, bit, op.code] }

def compare (var : UInt8) (op : CompareOp) (value : Int16) : Line :=
  { opcode := .cmp, operands := [0, var, op.code] ++ wordBytes value.toUInt16 }

def save (var : UInt8) (value : Int16) : Line :=
  { opcode := .save, operands := var :: wordBytes value.toUInt16 }

def copy (target source : UInt8) : Line := { opcode := .copy, operands := [target, source] }

def calculate (op : CalcOp) (var : UInt8) (value : Int16) : Line :=
  { opcode := .calculate, operands := [0, op.code, var] ++ wordBytes value.toUInt16 }

def calculate2 (op : CalcOp) (var source : UInt8) : Line :=
  { opcode := .calculate2, operands := [op.code, var, source] }

def workSet (kind index : UInt8) : Line := { opcode := .workSet, operands := [kind, index] }

def posSet (x y z : Int16) : Line :=
  { opcode := .posSet
    operands := 0 :: (wordBytes x.toUInt16 ++ wordBytes y.toUInt16 ++ wordBytes z.toUInt16) }

def cutChg (camera : UInt8) : Line := { opcode := .cutChg, operands := [camera] }

end Line

/-- Why an assembly step fails. -/
inductive AssemblyError where
  | tooManyOperands (opcode : Opcode) (count : Nat)
  | blockTooLong (opcode : Opcode) (position length : Nat)
  | unknownBlock (block : Nat)
  deriving DecidableEq

def AssemblyError.message : AssemblyError → String
  | .tooManyOperands opcode count =>
    s!"{opcode.mnemonic} takes {opcode.width - 1} parameter bytes, got {count}"
  | .blockTooLong opcode position length =>
    s!"{opcode.mnemonic} block at {position} spans {length} bytes, more than a u16 length"
  | .unknownBlock block => s!"no block {block} was opened"

/-- A block whose length is filled in when it is closed. -/
structure Block where
  opcode : Opcode
  /-- Where the opening instruction starts. -/
  position : Nat
  deriving DecidableEq

/-- How a block is closed. -/
inductive Closer where
  | endIf | next | endCase | endSwitch
  deriving DecidableEq

/-- What is written before the length is filled in. An else-body and a case have no closing
instruction. -/
def Closer.lines (c : Closer) (block : Block) : List Line :=
  match c with
  | .endIf => if block.opcode = .ifelCk then [{ opcode := .endif }] else []
  | .next => [{ opcode := .next }]
  | .endCase => []
  | .endSwitch => [{ opcode := .eswitch }]

/-- One step of assembly. Blocks are named by the order in which they were opened. -/
inductive Step where
  | emit (lines : List Line)
  | raw (bytes : List UInt8)
  | opening (line : Line)
  /-- Ends an if-body and opens its else-body. -/
  | openElse (block : Nat)
  | close (closer : Closer) (block : Nat)
  deriving DecidableEq

/-- The code written so far and the blocks opened in it, oldest first. -/
structure Listing where
  code : List UInt8 := []
  blocks : List Block := []
  deriving DecidableEq

namespace Listing

/-- Appends one line, unless it has more operands than its opcode takes. -/
def emit (l : Listing) (line : Line) : Except AssemblyError Listing :=
  if line.Fits then
    .ok { l with code := l.code ++ line.encode }
  else
    .error (.tooManyOperands line.opcode line.operands.length)

/-- Appends lines up to the first that cannot be written. -/
def emitAll (l : Listing) : List Line → Listing × Except AssemblyError Unit
  | [] => (l, .ok ())
  | line :: rest =>
    match l.emit line with
    | .ok l => l.emitAll rest
    | .error e => (l, .error e)

/-- Fills in the length of a block: the bytes behind its opening instruction. -/
def patch (l : Listing) (block : Block) : Except AssemblyError Listing :=
  let length := l.code.length - (block.position + block.opcode.width)
  if length < UInt16.size then
    let length := UInt16.ofNat length
    .ok { l with
      code := (l.code.set (block.position + 2) (lowByte length)).set (block.position + 3)
        (highByte length) }
  else
    .error (.blockTooLong block.opcode block.position length)

/-- Writes an opening line and names its block. -/
def openBlock (l : Listing) (line : Line) : Except AssemblyError (Listing × Nat) := do
  let written ← l.emit line
  return ({ written with blocks := l.blocks ++ [⟨line.opcode, l.code.length⟩] }, l.blocks.length)

/-- Performs one step and gives the name of the block it opened, if it opened one. -/
def perform (l : Listing) : Step → Listing × Except AssemblyError (Option Nat)
  | .emit lines =>
    let (l, result) := l.emitAll lines
    (l, result.map fun _ => none)
  | .raw bytes => ({ l with code := l.code ++ bytes }, .ok none)
  | .opening line =>
    match l.openBlock line with
    | .ok (l, block) => (l, .ok (some block))
    | .error e => (l, .error e)
  | .openElse block =>
    match l.blocks[block]? with
    | none => (l, .error (.unknownBlock block))
    | some ifBlock =>
      let written := { l with code := l.code ++ Line.elseCk.encode }
      match written.patch ifBlock with
      | .ok patched =>
        ({ patched with blocks := l.blocks ++ [⟨.elseCk, l.code.length⟩] },
          .ok (some l.blocks.length))
      | .error e => (written, .error e)
  | .close closer block =>
    match l.blocks[block]? with
    | none => (l, .error (.unknownBlock block))
    | some opened =>
      match l.emitAll (closer.lines opened) with
      | (l, .error e) => (l, .error e)
      | (l, .ok ()) =>
        match l.patch opened with
        | .ok l => (l, .ok none)
        | .error e => (l, .error e)

/-- The code of a function, written step by step; failing steps are passed over. -/
def assemble (steps : List Step) : List UInt8 :=
  (steps.foldl (fun (l : Listing) step => (l.perform step).1) {}).code

end Listing

end RoomScript
