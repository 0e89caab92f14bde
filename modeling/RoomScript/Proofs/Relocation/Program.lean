import RoomScript.Proofs.Instruction

/-!
# Programs behind other bytes

A program may be placed behind any bytes, if its entry points are moved along. Reading an instruction or
looking for the landing of a switch then gives what it gave before, with all positions moved by as much.
-/
namespace RoomScript

/-- The error of code that starts `d` bytes later. Only the end of the code is met at a position. -/
def DecodeError.shift (d : Nat) : DecodeError → DecodeError
  | .outOfBounds position => .outOfBounds (position + d)
  | e => e

/-- The fault of code that starts `d` bytes later. -/
def Fault.shift (d : Nat) : Fault → Fault
  | .decode position cause => .decode (position + d) (cause.shift d)
  | .malformedSwitch position opcode => .malformedSwitch (position + d) opcode
  | .unknownEvent event => .unknownEvent event
  | .callStackOverflow position => .callStackOverflow (position + d)
  | .callStackUnderflow position => .callStackUnderflow (position + d)
  | .jumpStackOverflow position => .jumpStackOverflow (position + d)
  | .jumpStackUnderflow position => .jumpStackUnderflow (position + d)
  | .loopOverflow position => .loopOverflow (position + d)
  | .noEnclosingLoop position => .noEnclosingLoop (position + d)
  | .divisionByZero position => .divisionByZero (position + d)
  | .invalidThread slot => .invalidThread slot

/-- The landing of a switch in code that starts `d` bytes later. -/
def Landing.shift (d : Nat) : Landing → Landing
  | .body position => .body (position + d)
  | .past position => .past (position + d)

/-- The program with its code behind the bytes of `front`. -/
def Program.behind (front : Array UInt8) (p : Program) : Program where
  code := front ++ p.code
  entries := p.entries.map (· + front.size)

theorem mapError_ok {α ε ε' : Type} (f : ε → ε') (a : α) :
    (Except.ok a : Except ε α).mapError f = .ok a := rfl

theorem mapError_error {α ε ε' : Type} (f : ε → ε') (e : ε) :
    (Except.error e : Except ε α).mapError f = .error (f e) := rfl

section

variable {front code : Array UInt8} {position : Nat}

theorem getElem?_behind : (front ++ code)[position + front.size]? = code[position]? := by
  rw [Array.getElem?_append_right (Nat.le_add_left _ _), Nat.add_sub_cancel]

theorem extract_behind (start stop : Nat) :
    (front ++ code).extract (start + front.size) (stop + front.size) = code.extract start stop := by
  rw [Array.extract_append, Nat.add_sub_cancel, Nat.add_sub_cancel,
    Array.extract_eq_empty_of_le (by omega), Array.empty_append]

theorem Instruction.decodeAt_behind (front code : Array UInt8) (position : Nat) :
    decodeAt (front ++ code) (position + front.size) =
      (decodeAt code position).mapError (DecodeError.shift front.size) := by
  have hextract : ∀ width, (front ++ code).extract (position + front.size + 1)
      (position + front.size + width) = code.extract (position + 1) (position + width) := by
    intro width
    rw [← extract_behind (position + 1), Nat.add_right_comm, Nat.add_right_comm position width]
  have hsize : (front ++ code).size - (position + front.size) = code.size - position := by
    rw [Array.size_append]
    omega
  simp only [decodeAt, getElem?_behind, hextract, hsize]
  cases code[position]? with
  | none => rfl
  | some byte =>
      simp only
      cases Opcode.ofByte? byte with
      | none => rfl
      | some opcode =>
          simp only
          split <;> rfl

theorem Program.instructionAt_behind (front : Array UInt8) (p : Program) (position : Nat) :
    (p.behind front).instructionAt (position + front.size) =
      (p.instructionAt position).mapError (DecodeError.shift front.size) :=
  Instruction.decodeAt_behind front p.code position

theorem Program.entry?_behind (front : Array UInt8) (p : Program) (event : UInt8) :
    Program.entry? (p.behind front) event = (p.entry? event).map (· + front.size) :=
  List.getElem?_map ..

/-- A switch finds the same landing, as much further on. -/
theorem Landing.find_behind (front code : Array UInt8) (value : Int16) (position : Nat) :
    find (front ++ code) value (position + front.size) =
      ((find code value position).map (Landing.shift front.size)).mapError
        (Fault.shift front.size) := by
  fun_induction find code value position with
  | case1 position byte h =>
      rw [find_eq, Instruction.decodeAt_behind, h]
      rfl
  | case2 position cause hc h =>
      rw [find_eq, Instruction.decodeAt_behind, h]
      cases cause with
      | unknownOpcode byte => exact absurd rfl (hc byte)
      | _ => rfl
  | case3 position header h behind hop hv =>
      rw [find_eq, Instruction.decodeAt_behind, h]
      simp only [mapError_ok, hop, hv, if_true]
      exact congrArg (fun n => Except.ok (body n)) (Nat.add_right_comm ..)
  | case4 position header h behind hop hv ih =>
      have hnext : position + front.size + header.width + (header.word 2).toNat =
          position + header.width + (header.word 2).toNat + front.size := by omega
      rw [find_eq, Instruction.decodeAt_behind, h]
      simp only [mapError_ok, hop, hv, if_false, hnext]
      exact ih
  | case5 position header h behind hop =>
      rw [find_eq, Instruction.decodeAt_behind, h]
      simp only [mapError_ok, hop]
      exact congrArg (fun n => Except.ok (body n)) (Nat.add_right_comm ..)
  | case6 position header h behind hop =>
      rw [find_eq, Instruction.decodeAt_behind, h]
      simp only [mapError_ok, hop]
      exact congrArg (fun n => Except.ok (past n)) (Nat.add_right_comm ..)
  | case7 position header h hcase hdefault hend =>
      rw [find_eq, Instruction.decodeAt_behind, h]
      simp only [mapError_ok, mapError_error, Except.map]
      rfl

end

end RoomScript
