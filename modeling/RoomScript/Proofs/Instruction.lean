import RoomScript.Dispatch.Command
import Mathlib.Data.List.Basic

/-!
# What a command tells of its instruction

A command that opens a conditional block, a loop, a sleep or a switch or calls a subroutine comes from one
opcode only, so it fixes the width of its instruction and all its bytes but the padding. A switch lands
behind the position at which it starts to look.
-/
namespace RoomScript

namespace Instruction

variable {i : Instruction}

theorem bytes_of_width_two (h : i.width = 2) : i.bytes = [i.opcode.byte, i.byte 1] := by
  obtain ⟨opcode, operands, hl⟩ := i
  have hlength : operands.length = 1 := by
    simp only [width] at h
    omega
  obtain ⟨a, rfl⟩ := List.length_eq_one_iff.mp hlength
  rfl

theorem bytes_of_width_four (h : i.width = 4) :
    i.bytes = i.opcode.byte :: i.byte 1 :: wordBytes (i.word 2) := by
  obtain ⟨opcode, operands, hl⟩ := i
  have hlength : operands.length = 3 := by
    simp only [width] at h
    omega
  obtain ⟨a, b, c, rfl⟩ := List.length_eq_three.mp hlength
  simp [bytes, byte, word, wordBytes]

theorem bytes_of_width_six (h : i.width = 6) :
    i.bytes = i.opcode.byte :: i.byte 1 :: (wordBytes (i.word 2) ++ wordBytes (i.word 4)) := by
  obtain ⟨opcode, operands, hl⟩ := i
  have hlength : operands.length = 5 := by
    simp only [width] at h
    omega
  obtain ⟨a, rest, rfl⟩ := List.exists_cons_of_length_eq_add_one hlength
  obtain ⟨b, rest, rfl⟩ := List.exists_cons_of_length_eq_add_one (Nat.succ.inj hlength)
  obtain ⟨c, d, e, rfl⟩ := List.length_eq_three.mp (Nat.succ.inj (Nat.succ.inj hlength))
  simp [bytes, byte, word, wordBytes]

end Instruction

namespace Command

/-- The opcode from which a command is read, unless it is a request to the world. -/
def opcode? : Command → Option Opcode
  | .flow .endEvent => some .evtEnd
  | .flow .ret => some .ret
  | .flow (.gosub _) => some .gosub
  | .flow (.openIf _) => some .ifelCk
  | .flow (.openElse _) => some .elseCk
  | .flow .closeIf => some .endif
  | .flow (.sleep _) => some .sleep
  | .flow .sleeping => some .sleeping
  | .flow (.openFor _ _) => some .forLoop
  | .flow .next => some .next
  | .flow .closeSwitch => some .eswitch
  | .flow .breakOut => some .breakOut
  | .flow (.workSet _) => some .workSet
  | .data (.checkBit _ _ _) => some .ck
  | .data (.setBit _ _ _) => some .set
  | .data (.compare _ _ _) => some .cmp
  | .data (.save _ _) => some .save
  | .data (.copy _ _) => some .copy
  | .data (.calculate _ _ _) => some .calculate
  | .data (.calculateFrom _ _ _) => some .calculate2
  | .event (.exec _ _) => some .evtExec
  | .event (.kill _) => some .evtKill
  | .switch _ _ => some .switch
  | .world _ => none

variable {i : Instruction}

theorem opcode_of_opcode? {op : Opcode} (h : (ofInstruction i).opcode? = some op) :
    i.opcode = op := by
  unfold ofInstruction at h
  split at h <;> first | exact (‹i.opcode = _›).trans (Option.some.inj h) | cases h

theorem opcode_of_gosub {event : UInt8} (h : ofInstruction i = .flow (.gosub event)) :
    i.opcode = .gosub := opcode_of_opcode? (congrArg opcode? h)

theorem opcode_of_openIf {length : UInt16} (h : ofInstruction i = .flow (.openIf length)) :
    i.opcode = .ifelCk := opcode_of_opcode? (congrArg opcode? h)

theorem opcode_of_sleep {ticks : UInt16} (h : ofInstruction i = .flow (.sleep ticks)) :
    i.opcode = .sleep := opcode_of_opcode? (congrArg opcode? h)

theorem opcode_of_openFor {length count : UInt16}
    (h : ofInstruction i = .flow (.openFor length count)) : i.opcode = .forLoop :=
  opcode_of_opcode? (congrArg opcode? h)

theorem opcode_of_switch {id : UInt8} {length : UInt16} (h : ofInstruction i = .switch id length) :
    i.opcode = .switch := opcode_of_opcode? (congrArg opcode? h)

theorem width_of_gosub {event : UInt8} (h : ofInstruction i = .flow (.gosub event)) :
    i.width = 2 := congrArg Opcode.width (opcode_of_gosub h)

theorem width_of_openIf {length : UInt16} (h : ofInstruction i = .flow (.openIf length)) :
    i.width = 4 := congrArg Opcode.width (opcode_of_openIf h)

theorem width_of_sleep {ticks : UInt16} (h : ofInstruction i = .flow (.sleep ticks)) :
    i.width = 4 := congrArg Opcode.width (opcode_of_sleep h)

theorem width_of_openFor {length count : UInt16}
    (h : ofInstruction i = .flow (.openFor length count)) : i.width = 6 :=
  congrArg Opcode.width (opcode_of_openFor h)

theorem width_of_switch {id : UInt8} {length : UInt16} (h : ofInstruction i = .switch id length) :
    i.width = 4 := congrArg Opcode.width (opcode_of_switch h)

theorem bytes_of_gosub {event : UInt8} (h : ofInstruction i = .flow (.gosub event)) :
    i.bytes = [Opcode.gosub.byte, event] := by
  have hop := opcode_of_gosub h
  have hw := width_of_gosub h
  simp only [ofInstruction, hop] at h
  cases h
  rw [Instruction.bytes_of_width_two hw, hop]

theorem bytes_of_openIf {length : UInt16} (h : ofInstruction i = .flow (.openIf length)) :
    i.bytes = Opcode.ifelCk.byte :: i.byte 1 :: wordBytes length := by
  have hop := opcode_of_openIf h
  have hw := width_of_openIf h
  simp only [ofInstruction, hop] at h
  cases h
  rw [Instruction.bytes_of_width_four hw, hop]

theorem bytes_of_sleep {ticks : UInt16} (h : ofInstruction i = .flow (.sleep ticks)) :
    i.bytes = Opcode.sleep.byte :: i.byte 1 :: wordBytes ticks := by
  have hop := opcode_of_sleep h
  have hw := width_of_sleep h
  simp only [ofInstruction, hop] at h
  cases h
  rw [Instruction.bytes_of_width_four hw, hop]

theorem bytes_of_switch {id : UInt8} {length : UInt16} (h : ofInstruction i = .switch id length) :
    i.bytes = Opcode.switch.byte :: id :: wordBytes length := by
  have hop := opcode_of_switch h
  have hw := width_of_switch h
  simp only [ofInstruction, hop] at h
  cases h
  rw [Instruction.bytes_of_width_four hw, hop]

theorem bytes_of_openFor {length count : UInt16}
    (h : ofInstruction i = .flow (.openFor length count)) :
    i.bytes = Opcode.forLoop.byte :: i.byte 1 :: (wordBytes length ++ wordBytes count) := by
  have hop := opcode_of_openFor h
  have hw := width_of_openFor h
  simp only [ofInstruction, hop] at h
  cases h
  rw [Instruction.bytes_of_width_six hw, hop]

end Command

namespace Landing

/-- Looking for a landing reads the next header and may go on behind its case. -/
theorem find_eq (code : Array UInt8) (value : Int16) (position : Nat) :
    find code value position =
      match Instruction.decodeAt code position with
      | .error (.unknownOpcode byte) => .error (.malformedSwitch position byte)
      | .error cause => .error (.decode position cause)
      | .ok header =>
        match header.opcode with
        | .case =>
          if header.int 4 = value then
            .ok (.body (position + header.width))
          else
            find code value (position + header.width + (header.word 2).toNat)
        | .default => .ok (.body (position + header.width))
        | .eswitch => .ok (.past (position + header.width))
        | other => .error (.malformedSwitch position other.byte) := by
  rw [find]
  split
  · simp_all
  · simp_all
  · rename_i header h
    cases hop : header.opcode <;> simp only [h, hop]

/-- Where the thread goes on. -/
def position : Landing → Nat
  | .body position => position
  | .past position => position

/-- A switch lands behind the header at which it starts to look. -/
theorem lt_position_of_find {code : Array UInt8} {value : Int16} {start : Nat} {landing : Landing}
    (h : find code value start = .ok landing) : start < landing.position := by
  fun_induction find code value start with
  | case1 => cases h
  | case2 => cases h
  | case3 start header _ _ _ behind =>
      cases h
      exact Nat.lt_add_of_pos_right header.width_pos
  | case4 start header _ _ _ behind ih =>
      have hw := header.width_pos
      have hp := ih h
      omega
  | case5 start header _ _ behind =>
      cases h
      exact Nat.lt_add_of_pos_right header.width_pos
  | case6 start header _ _ behind =>
      cases h
      exact Nat.lt_add_of_pos_right header.width_pos
  | case7 => cases h

end Landing

end RoomScript
