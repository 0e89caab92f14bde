import RoomScript.Command
import RoomScript.Program.Walk
import RoomScript.Proofs.Instruction
import RoomScript.Proofs.Structured.Build

/-!
# Lines in a program

Where the bytes of lines stand in a program, the program has their instructions, one behind the other.
The lines of structured code come back as the commands that they are meant as, lengths included.
-/
namespace RoomScript

namespace Command

variable {length : Nat}

theorem ofInstruction_ifelCk : ofInstruction (Line.ifelCk.spanning length).instruction =
    .flow (.openIf (UInt16.ofNat length)) :=
  congrArg (fun w => Command.flow (.openIf w)) (wordOf_lowByte_highByte _)

theorem ofInstruction_elseCk : ofInstruction (Line.elseCk.spanning length).instruction =
    .flow (.openElse (UInt16.ofNat length)) :=
  congrArg (fun w => Command.flow (.openElse w)) (wordOf_lowByte_highByte _)

theorem ofInstruction_forLoop (count : UInt16) :
    ofInstruction ((Line.forLoop count).spanning length).instruction =
      .flow (.openFor (UInt16.ofNat length) count) :=
  congr (congrArg (fun w c => Command.flow (.openFor w c)) (wordOf_lowByte_highByte _))
    (wordOf_lowByte_highByte _)

theorem ofInstruction_switch (var : UInt8) :
    ofInstruction ((Line.switch var).spanning length).instruction =
      .switch var (UInt16.ofNat length) :=
  congrArg (Command.switch var) (wordOf_lowByte_highByte _)

theorem ofInstruction_endif : ofInstruction Line.endif.instruction = .flow .closeIf := rfl

theorem ofInstruction_next : ofInstruction Line.next.instruction = .flow .next := rfl

theorem ofInstruction_eswitch : ofInstruction Line.eswitch.instruction = .flow .closeSwitch := rfl

theorem ofInstruction_breakOut : ofInstruction Line.breakOut.instruction = .flow .breakOut := rfl

theorem ofInstruction_evtEnd : ofInstruction Line.evtEnd.instruction = .flow .endEvent := rfl

/-- The header of a case is no command for a thread that falls through it. -/
theorem ofInstruction_case (value : Int16) :
    ofInstruction ((Line.case value).spanning length).instruction =
      .world ((Line.case value).spanning length).instruction := rfl

theorem ofInstruction_default :
    ofInstruction Line.default.instruction = .world Line.default.instruction := rfl

end Command

/-- Signed words are written and read as words. -/
theorem toInt16_wordOf (value : Int16) :
    (wordOf (lowByte value.toUInt16) (highByte value.toUInt16)).toInt16 = value :=
  (congrArg UInt16.toInt16 (wordOf_lowByte_highByte _)).trans (Int16.toInt16_toUInt16 value)

/-- What the switch reads of the header of a case. -/
theorem Line.int_case (value : Int16) (length : Nat) :
    ((Line.case value).spanning length).instruction.int 4 = value :=
  toInt16_wordOf value

theorem Line.word_case (value : Int16) (length : Nat) :
    ((Line.case value).spanning length).instruction.word 2 = UInt16.ofNat length :=
  wordOf_lowByte_highByte _

theorem toNat_length {length : Nat} (h : length < UInt16.size) :
    (UInt16.ofNat length).toNat = length :=
  UInt16.toNat_ofNat_of_lt h

namespace Landing

variable {p : Program} {position length : Nat} {value : Int16}

/-- At the header of a case the walk stops, or hops over the body. -/
theorem find_at_case {v : Int16}
    (h : p.instructionAt position = .ok ((Line.case v).spanning length).instruction)
    (hlength : length < UInt16.size) :
    find p.code value position =
      if v = value then .ok (.body (position + 6)) else find p.code value (position + 6 + length) := by
  rw [find_of_case h rfl, Line.int_case, Line.word_case, toNat_length hlength]
  rfl

theorem find_at_default (h : p.instructionAt position = .ok Line.default.instruction) :
    find p.code value position = .ok (.body (position + 2)) := by
  have hread : Instruction.decodeAt p.code position = .ok Line.default.instruction := h
  rw [find_eq, hread]
  rfl

theorem find_at_eswitch (h : p.instructionAt position = .ok Line.eswitch.instruction) :
    find p.code value position = .ok (.past (position + 2)) := by
  have hread : Instruction.decodeAt p.code position = .ok Line.eswitch.instruction := h
  rw [find_eq, hread]
  rfl

end Landing

namespace Body

variable {α : Type} [Leaf α] {p : Program} {position : Nat} {body other rest : Body α}
  {cases : Cases α}

theorem extent_ifThen : Line.extent (ifThen body rest).lines =
    4 + Line.extent body.lines + 2 + Line.extent rest.lines := by
  simp [lines, Nat.add_assoc]

theorem extent_ifElse : Line.extent (ifElse body other rest).lines =
    4 + Line.extent body.lines + 4 + Line.extent other.lines + Line.extent rest.lines := by
  simp [lines, Nat.add_assoc]

theorem extent_loop {count : UInt16} : Line.extent (loop count body rest).lines =
    6 + Line.extent body.lines + 2 + Line.extent rest.lines := by
  simp [lines, Nat.add_assoc]

theorem extent_switch {var : UInt8} : Line.extent (switch var cases rest).lines =
    4 + Line.extent cases.lines + 2 + Line.extent rest.lines := by
  simp [lines, Nat.add_assoc]

theorem lists_ifThen (h : p.Lists position (ifThen body rest).lines) :
    p.instructionAt position =
        .ok (Line.ifelCk.spanning (Line.extent body.lines + 2)).instruction ∧
      p.Lists (position + 4) body.lines ∧
      p.instructionAt (position + 4 + Line.extent body.lines) = .ok Line.endif.instruction ∧
      p.Lists (position + 4 + Line.extent body.lines + 2) rest.lines := by
  simpa [lines] using h

theorem lists_ifElse (h : p.Lists position (ifElse body other rest).lines) :
    p.instructionAt position =
        .ok (Line.ifelCk.spanning (Line.extent body.lines + 4)).instruction ∧
      p.Lists (position + 4) body.lines ∧
      p.instructionAt (position + 4 + Line.extent body.lines) =
        .ok (Line.elseCk.spanning (Line.extent other.lines)).instruction ∧
      p.Lists (position + 4 + Line.extent body.lines + 4) other.lines ∧
      p.Lists (position + 4 + Line.extent body.lines + 4 + Line.extent other.lines) rest.lines := by
  simpa [lines] using h

theorem lists_loop {count : UInt16} (h : p.Lists position (loop count body rest).lines) :
    p.instructionAt position =
        .ok ((Line.forLoop count).spanning (Line.extent body.lines + 2)).instruction ∧
      p.Lists (position + 6) body.lines ∧
      p.instructionAt (position + 6 + Line.extent body.lines) = .ok Line.next.instruction ∧
      p.Lists (position + 6 + Line.extent body.lines + 2) rest.lines := by
  simpa [lines] using h

/-- Where the code of a function stands, its lines can be read. -/
theorem lists_of_function {code : List UInt8} (h : body.function = .ok code)
    (hp : p.Has position code) : body.Fits ∧ p.Lists position (body.lines ++ [.evtEnd]) := by
  obtain ⟨hfits, rfl⟩ := function_eq_ok h
  constructor
  · exact hfits
  · apply Program.lists_of_has _ hp
    simp only [List.forall_mem_append, List.forall_mem_singleton]
    exact ⟨body.fits_lines hfits, by decide⟩

theorem lists_switch {var : UInt8} (h : p.Lists position (switch var cases rest).lines) :
    p.instructionAt position =
        .ok ((Line.switch var).spanning (Line.extent cases.lines + 2)).instruction ∧
      p.Lists (position + 4) (cases.lines ++ [.eswitch]) ∧
      p.Lists (position + 4 + Line.extent cases.lines + 2) rest.lines := by
  simpa [lines, and_assoc] using h

end Body

namespace Cases

variable {α : Type} [Leaf α] {p : Program}

theorem extent_default {body : Body α} :
    Line.extent (default body).lines = 2 + Line.extent body.lines := by
  simp [lines]

theorem extent_case {value : Int16} {body : Body α} {rest : Cases α} :
    Line.extent (case value body rest).lines =
      6 + Line.extent body.lines + Line.extent rest.lines := by
  simp [lines, Nat.add_assoc]

theorem lists_case {value : Int16} {body : Body α} {rest : Cases α} {position : Nat}
    (h : p.Lists position (case value body rest).lines) :
    p.instructionAt position =
        .ok ((Line.case value).spanning (Line.extent body.lines)).instruction ∧
      p.Lists (position + 6) body.lines ∧
      p.Lists (position + 6 + Line.extent body.lines) rest.lines := by
  simpa [lines] using h

/-- Where a switch lands in its cases, if one of them is for the value or there is a default. -/
def landing? (value : Int16) (position : Nat) : Cases α → Option Nat
  | .none => Option.none
  | .default _ => some (position + 2)
  | .case v body rest =>
    if v = value then some (position + 6)
    else rest.landing? value (position + 6 + Line.extent body.lines)

/-- A switch looks through its cases in order and finds their end when it takes none. -/
theorem find_eq (value : Int16) : ∀ {cases : Cases α} {position : Nat}, cases.Fits →
    p.Lists position (cases.lines ++ [.eswitch]) →
    Landing.find p.code value position =
      .ok (((cases.landing? value position).map Landing.body).getD
        (.past (position + Line.extent cases.lines + 2)))
  | .none, _, _, h => Landing.find_at_eswitch h.1
  | .default _, _, _, h => Landing.find_at_default h.1
  | .case v body rest, position, hf, h => by
      obtain ⟨hlength, _, hrest⟩ := hf
      have hread : p.instructionAt position =
          .ok ((Line.case v).spanning (Line.extent body.lines)).instruction := h.1
      simp only [lines, List.cons_append, List.append_assoc, Program.lists_cons,
        Program.lists_append, Line.opcode_spanning, Line.width_case] at h
      have hnext := rest.find_eq value hrest (Program.lists_append.mpr h.2.2)
      rw [Landing.find_at_case hread hlength]
      by_cases hv : v = value
      · simp only [hv, if_true, landing?, Option.map_some, Option.getD_some]
      · have hextent : position + Line.extent (Cases.case v body rest).lines =
            position + 6 + Line.extent body.lines + Line.extent rest.lines := by
          simp only [lines, Line.extent_cons, Line.extent_append, Line.opcode_spanning,
            Line.width_case]
          omega
        simp only [hv, if_false, landing?, hextent]
        exact hnext

end Cases

end RoomScript
