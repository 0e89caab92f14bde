import RoomScript.Assembly
import RoomScript.Program

/-!
# Walking over code

A walk lists the instructions met from a position on, each one starting where the one before it
ends, and the fault at which the walk stops. It always stops: every instruction is at least one byte
wide and starts inside the code. Where the bytes of some lines stand, a walk meets the instructions of
these lines.
-/
namespace RoomScript

/-- The instructions of some lines, each with the position at which it starts. -/
def Line.placed : Nat → List Line → List (Nat × Instruction)
  | _, [] => []
  | position, l :: rest => (position, l.instruction) :: placed (position + l.opcode.width) rest

namespace Program

/-- The instructions from a position on with their positions, and the fault behind the last one. -/
def walk (p : Program) (position : Nat) : List (Nat × Instruction) × DecodeError :=
  match _h : p.instructionAt position with
  | .error e => ([], e)
  | .ok i =>
    let (steps, stop) := p.walk (position + i.width)
    ((position, i) :: steps, stop)
termination_by p.code.size - position
decreasing_by
  have := Instruction.lt_size_of_decodeAt _h
  have := i.width_pos
  omega

variable {p : Program} {position : Nat}

theorem walk_of_error {e : DecodeError}
    (h : p.instructionAt position = .error e) : p.walk position = ([], e) := by
  rw [walk]
  split <;> simp_all

theorem walk_of_ok {i : Instruction} (h : p.instructionAt position = .ok i) :
    p.walk position =
      ((position, i) :: (p.walk (position + i.width)).1, (p.walk (position + i.width)).2) := by
  rw [walk]
  split <;> simp_all

/-- The instructions of some lines can be read one behind the other from a position on. -/
def Lists (p : Program) : Nat → List Line → Prop
  | _, [] => True
  | position, l :: rest =>
    p.instructionAt position = .ok l.instruction ∧ p.Lists (position + l.opcode.width) rest

@[simp] theorem lists_nil : p.Lists position [] := trivial

@[simp] theorem lists_cons {l : Line} {lines : List Line} :
    p.Lists position (l :: lines) ↔
      p.instructionAt position = .ok l.instruction ∧
        p.Lists (position + l.opcode.width) lines := Iff.rfl

@[simp] theorem lists_append {lines lines' : List Line} :
    p.Lists position (lines ++ lines') ↔
      p.Lists position lines ∧ p.Lists (position + Line.extent lines) lines' := by
  induction lines generalizing position with
  | nil => simp
  | cons l lines ih => simp [ih, Nat.add_assoc, and_assoc]

theorem lists_of_has {lines : List Line} (hf : ∀ l ∈ lines, l.Fits)
    (h : p.Has position (Line.encodeAll lines)) : p.Lists position lines := by
  induction lines generalizing position with
  | nil => exact trivial
  | cons l lines ih =>
      rw [Line.encodeAll_cons, has_append, Line.length_encode (hf l (by simp))] at h
      constructor
      · apply instructionAt_of_has
        rw [Line.bytes_instruction (hf l (by simp))]
        exact h.1
      · exact ih (fun l' hl' => hf l' (by simp [hl'])) h.2

/-- A walk over listed lines up to the end of the code meets their instructions and then that end. -/
theorem walk_of_lists {lines : List Line} (h : p.Lists position lines)
    (hend : position + Line.extent lines = p.code.size) :
    p.walk position = (Line.placed position lines, .outOfBounds p.code.size) := by
  induction lines generalizing position with
  | nil =>
      have hstop : p.instructionAt position = .error (.outOfBounds position) :=
        Instruction.decodeAt_eq_outOfBounds (Nat.le_of_eq hend.symm)
      rw [walk_of_error hstop, ← hend]
      rfl
  | cons l lines ih =>
      rw [Line.extent_cons, ← Nat.add_assoc] at hend
      rw [walk_of_ok h.1, Line.width_instruction, ih h.2 hend]
      rfl

end Program

end RoomScript
