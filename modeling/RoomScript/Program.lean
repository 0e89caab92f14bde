import RoomScript.Instruction

/-!
# Programs

The program of a room is one run of script code with an entry point per event. Positions are byte
offsets into the code, so all events share one address space and a subroutine call is a jump to
another event's entry point.
-/
namespace RoomScript

structure Program where
  code : Array UInt8 := #[]
  /-- The position at which each event starts. -/
  entries : List Nat := []
  deriving DecidableEq

namespace Program

/-- Where each of a list of functions starts when they are placed one after another. -/
def startsFrom (start : Nat) : List (List UInt8) → List Nat
  | [] => []
  | f :: rest => start :: startsFrom (start + f.length) rest

/-- The program whose events are the given functions, placed one after another. -/
def ofFunctions (functions : List (List UInt8)) : Program where
  code := functions.flatten.toArray
  entries := startsFrom 0 functions

def entry? (p : Program) (event : UInt8) : Option Nat := p.entries[event.toNat]?

def instructionAt (p : Program) (position : Nat) : Except DecodeError Instruction :=
  Instruction.decodeAt p.code position

@[simp] theorem length_startsFrom (start : Nat) (functions : List (List UInt8)) :
    (startsFrom start functions).length = functions.length := by
  induction functions generalizing start with
  | nil => rfl
  | cons f rest ih => simp [startsFrom, ih]

/-- Function `i` starts behind all the functions before it. -/
theorem getElem?_startsFrom (start : Nat) (functions : List (List UInt8)) (i : Nat)
    (h : i < functions.length) :
    (startsFrom start functions)[i]? = some (start + (functions.take i).flatten.length) := by
  induction functions generalizing start i with
  | nil => simp at h
  | cons f rest ih =>
    cases i with
    | zero => simp [startsFrom]
    | succ i =>
      simp only [startsFrom, List.getElem?_cons_succ, List.take_succ_cons, List.flatten_cons,
        List.length_append]
      rw [ih _ _ (Nat.lt_of_succ_lt_succ h), Nat.add_assoc]

/-- An event starts behind the functions before its own, if there is one for it. -/
theorem entry?_ofFunctions (functions : List (List UInt8)) (event : UInt8) :
    entry? (ofFunctions functions) event =
      if event.toNat < functions.length then some (functions.take event.toNat).flatten.length
      else none := by
  rw [ofFunctions, Program.entry?]
  by_cases h : event.toNat < functions.length
  · rw [if_pos h, getElem?_startsFrom 0 functions event.toNat h, Nat.zero_add]
  · rw [if_neg h, List.getElem?_eq_none (by simpa using h)]

variable {p : Program} {position : Nat}

/-- The code holds some bytes from a position on. -/
def Has (p : Program) (position : Nat) (bytes : List UInt8) : Prop :=
  ∀ i, i < bytes.length → p.code[position + i]? = bytes[i]?

theorem has_append {a b : List UInt8} :
    p.Has position (a ++ b) ↔ p.Has position a ∧ p.Has (position + a.length) b := by
  simp only [Has, List.length_append]
  constructor
  · intro h
    constructor
    · intro i hi
      rw [h i (by omega), List.getElem?_append_left hi]
    · intro i hi
      rw [Nat.add_assoc, h (a.length + i) (by omega),
        List.getElem?_append_right (Nat.le_add_right _ _), Nat.add_sub_cancel_left]
  · rintro ⟨ha, hb⟩ i hi
    by_cases hlt : i < a.length
    · rw [ha i hlt, List.getElem?_append_left hlt]
    · have hi' := hb (i - a.length) (by omega)
      have hsum : position + a.length + (i - a.length) = position + i := by omega
      rw [hsum] at hi'
      rw [hi', List.getElem?_append_right (Nat.le_of_not_lt hlt)]

/-- Where the bytes of an instruction stand, the instruction can be read. -/
theorem instructionAt_of_has {i : Instruction} (h : p.Has position i.bytes) :
    p.instructionAt position = .ok i := by
  have hlength := i.length_operands
  have hbyte : p.code[position]? = some i.opcode.byte := by
    have h0 := h 0 (by simp [Instruction.bytes])
    simpa [Instruction.bytes] using h0
  have hoperands : (p.code.extract (position + 1) (position + i.opcode.width)).toList =
      i.operands := by
    apply List.ext_getElem?
    intro k
    rw [Array.getElem?_toList, Array.getElem?_extract]
    by_cases hk : k < i.operands.length
    · have hk' := h (k + 1) (by simp [Instruction.bytes]; omega)
      rw [show position + (k + 1) = position + 1 + k by omega] at hk'
      have hsome : p.code[position + 1 + k]? = some i.operands[k] := by
        rw [hk', Instruction.bytes, List.getElem?_cons_succ, List.getElem?_eq_getElem hk]
      have hsize := (Array.getElem?_eq_some_iff.mp hsome).1
      rw [if_pos (by omega), hsome, List.getElem?_eq_getElem hk]
    · rw [if_neg (by omega), List.getElem?_eq_none (Nat.le_of_not_lt hk)]
  simp only [instructionAt, Instruction.decodeAt, hbyte, Opcode.ofByte?_byte, hoperands]
  rw [dif_pos hlength]

/-- From the start of a function on, the code holds that function and all behind it. -/
theorem has_drop (functions : List (List UInt8)) (i : Nat) :
    (ofFunctions functions).Has (functions.take i).flatten.length (functions.drop i).flatten := by
  have hsplit : functions.flatten = (functions.take i).flatten ++ (functions.drop i).flatten := by
    rw [← List.flatten_append, List.take_append_drop]
  intro k hk
  simp only [ofFunctions, List.getElem?_toArray]
  rw [hsplit, List.getElem?_append_right (Nat.le_add_right _ _), Nat.add_sub_cancel_left]

/-- A program of functions has each of them where its event starts. -/
theorem has_of_entry? {functions : List (List UInt8)} {event : UInt8} {entry : Nat}
    (h : entry? (ofFunctions functions) event = some entry) :
    ∃ f ∈ functions, (ofFunctions functions).Has entry f := by
  rw [entry?_ofFunctions] at h
  obtain ⟨hlt, hstart⟩ := Option.ite_none_right_eq_some.mp h
  have hstart := (Option.some.inj hstart).symm
  have hhas := has_drop functions event.toNat
  rw [List.drop_eq_getElem_cons hlt, List.flatten_cons, has_append, ← hstart] at hhas
  exact ⟨functions[event.toNat], List.getElem_mem hlt, hhas.1⟩

end Program

end RoomScript
