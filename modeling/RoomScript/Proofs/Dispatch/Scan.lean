import RoomScript.Proofs.Instruction

/-!
# The walk of a switch

A switch walks from header to header until it meets one at which it stops: a case for its value, a default,
the end of the switch, or something that is no header. Every hop goes forward, past the header and past the
body behind it, so the positions of a walk rise up to the last one, where the landing is found or the fault
is met. None of this looks at the bytes between the headers.
-/
namespace RoomScript

/-- The code has no whole instruction at a position, and no byte there that is none. -/
inductive Instruction.Missing (code : Array UInt8) (position : Nat) : DecodeError → Prop
  | outside : code.size ≤ position → Missing code position (.outOfBounds position)
  | truncated {opcode : Opcode} :
      code[position]? = some opcode.byte → code.size < position + opcode.width →
      Missing code position (.truncated opcode.byte opcode.width (code.size - position))

/-- Reading an instruction fails at a byte that is no opcode, or where there is no whole instruction. -/
theorem Instruction.decodeAt_eq_error {code : Array UInt8} {position : Nat} {cause : DecodeError}
    (h : decodeAt code position = .error cause) :
    (∃ byte, code[position]? = some byte ∧ Opcode.ofByte? byte = none ∧
      cause = .unknownOpcode byte) ∨ Missing code position cause := by
  unfold decodeAt at h
  split at h
  · rename_i hnone
    cases h
    exact .inr (.outside (Array.getElem?_eq_none_iff.mp hnone))
  · rename_i byte hbyte
    split at h
    · rename_i hop
      cases h
      exact .inl ⟨byte, hbyte, hop, rfl⟩
    · rename_i opcode hop
      simp only at h
      split at h
      · cases h
      · rename_i hlength
        cases h
        have hcode := Opcode.byte_of_ofByte? hop
        subst hcode
        have hsize := (Array.getElem?_eq_some_iff.mp hbyte).1
        have hwidth := opcode.width_pos
        simp only [Array.length_toList, Array.size_extract] at hlength
        exact .inr (.truncated hbyte (by omega))

/-- A decoded instruction starts with the byte of its opcode. -/
theorem Instruction.getElem?_of_decodeAt {code : Array UInt8} {position : Nat} {i : Instruction}
    (h : decodeAt code position = .ok i) : code[position]? = some i.opcode.byte := by
  unfold decodeAt at h
  split at h
  · cases h
  · rename_i byte hbyte
    split at h
    · cases h
    · rename_i opcode hop
      simp only at h
      split at h
      · cases h
        rw [hbyte, Opcode.byte_of_ofByte? hop]
      · cases h

namespace Landing

/-- From the header of a case for another value to what is behind its body. -/
inductive Hops (code : Array UInt8) (value : Int16) (position : Nat) : Nat → Prop
  | intro {header : Instruction} :
      Instruction.decodeAt code position = .ok header → header.opcode = .case →
      header.int 4 ≠ value →
      Hops code value position (position + header.width + (header.word 2).toNat)

/-- What a switch comes to at the position where its walk stops. -/
inductive Halts (code : Array UInt8) (value : Int16) (position : Nat) : Except Fault Landing → Prop
  | case {header : Instruction} :
      Instruction.decodeAt code position = .ok header → header.opcode = .case →
      header.int 4 = value → Halts code value position (.ok (.body (position + header.width)))
  | default {header : Instruction} :
      Instruction.decodeAt code position = .ok header → header.opcode = .default →
      Halts code value position (.ok (.body (position + header.width)))
  | eswitch {header : Instruction} :
      Instruction.decodeAt code position = .ok header → header.opcode = .eswitch →
      Halts code value position (.ok (.past (position + header.width)))
  /-- An instruction that is no header. -/
  | other {i : Instruction} :
      Instruction.decodeAt code position = .ok i →
      i.opcode ∉ [Opcode.case, .default, .eswitch] →
      Halts code value position (.error (.malformedSwitch position i.opcode.byte))
  /-- A byte that is no opcode, which would be passed over outside a switch. -/
  | unknown {byte : UInt8} :
      code[position]? = some byte → Opcode.ofByte? byte = none →
      Halts code value position (.error (.malformedSwitch position byte))
  | missing {cause : DecodeError} :
      Instruction.Missing code position cause →
      Halts code value position (.error (.decode position cause))

/-- The walk from a position on, told by the positions that it looks at, and what it comes to. -/
inductive Scans (code : Array UInt8) (value : Int16) :
    Nat → List Nat → Except Fault Landing → Prop
  | stop {position : Nat} {result : Except Fault Landing} :
      Halts code value position result → Scans code value position [position] result
  | hop {position next : Nat} {trail : List Nat} {result : Except Fault Landing} :
      Hops code value position next → Scans code value next trail result →
      Scans code value position (position :: trail) result

variable {code : Array UInt8} {value : Int16} {position next : Nat} {trail : List Nat}
  {result : Except Fault Landing}

/-- Whatever the code is, looking for a landing is such a walk. -/
theorem exists_scan (code : Array UInt8) (value : Int16) (position : Nat) :
    ∃ trail, Scans code value position trail (find code value position) := by
  fun_induction find code value position with
  | case1 position byte h =>
      rcases Instruction.decodeAt_eq_error h with ⟨_, hbyte, hnone, heq⟩ | hmissing
      · cases heq
        exact ⟨_, .stop (.unknown hbyte hnone)⟩
      · cases hmissing
  | case2 position cause hc h =>
      rcases Instruction.decodeAt_eq_error h with ⟨byte, _, _, heq⟩ | hmissing
      · exact absurd heq (hc byte)
      · exact ⟨_, .stop (.missing hmissing)⟩
  | case3 position header h behind hop hv => exact ⟨_, .stop (.case h hop hv)⟩
  | case4 position header h behind hop hv ih =>
      obtain ⟨trail, hscan⟩ := ih
      exact ⟨_, .hop (.intro h hop hv) hscan⟩
  | case5 position header h behind hop => exact ⟨_, .stop (.default h hop)⟩
  | case6 position header h behind hop => exact ⟨_, .stop (.eswitch h hop)⟩
  | case7 position header h hcase hdefault hend =>
      exact ⟨_, .stop (.other h (by simp_all))⟩

/-- A hop goes past the header at least, which stands inside the code. -/
theorem Hops.lt (h : Hops code value position next) : position < next ∧ position < code.size := by
  cases h with
  | @intro header hread _ _ =>
      have hwidth := header.width_pos
      exact ⟨by omega, Instruction.lt_size_of_decodeAt hread⟩

theorem Scans.le_of_mem (h : Scans code value position trail result) :
    ∀ seen ∈ trail, position ≤ seen := by
  induction h with
  | stop _ => simp
  | hop hhop _ ih =>
      have hlt := hhop.lt.1
      refine List.forall_mem_cons.mpr ⟨Nat.le_refl _, fun seen hseen => ?_⟩
      exact Nat.le_trans (Nat.le_of_lt hlt) (ih seen hseen)

/-- The positions of a walk rise. -/
theorem Scans.pairwise (h : Scans code value position trail result) : trail.Pairwise (· < ·) := by
  induction h with
  | stop _ => exact List.pairwise_singleton _ _
  | hop hhop hscan ih =>
      refine List.pairwise_cons.mpr ⟨fun seen hseen => ?_, ih⟩
      exact Nat.lt_of_lt_of_le hhop.lt.1 (hscan.le_of_mem seen hseen)

/-- A walk is no longer than the code behind its start, the position past the end included. -/
theorem Scans.length_le (h : Scans code value position trail result) :
    trail.length ≤ code.size - position + 1 := by
  induction h with
  | stop _ => exact Nat.le_add_left _ _
  | hop hhop _ ih =>
      obtain ⟨hlt, hsize⟩ := hhop.lt
      rw [List.length_cons]
      omega

/-- What a walk comes to is what its last position makes of it. -/
theorem Scans.halts (h : Scans code value position trail result) :
    ∃ front last, trail = front ++ [last] ∧ Halts code value last result := by
  induction h with
  | stop hhalt => exact ⟨[], _, rfl, hhalt⟩
  | hop _ _ ih =>
      obtain ⟨front, last, rfl, hhalt⟩ := ih
      exact ⟨_ :: front, last, rfl, hhalt⟩

/-- A walk with its end: it only goes forward, and stops at its last position. -/
structure Walks (code : Array UInt8) (value : Int16) (start : Nat) (front : List Nat) (last : Nat)
    (result : Except Fault Landing) : Prop where
  scans : Scans code value start (front ++ [last]) result
  rises : (front ++ [last]).Pairwise (· < ·)
  behind : ∀ position ∈ front ++ [last], start ≤ position
  short : front.length ≤ code.size - start
  halts : Halts code value last result

/-- Looking for a landing ends, whatever the code is. -/
theorem exists_walk (code : Array UInt8) (value : Int16) (start : Nat) :
    ∃ front last, Walks code value start front last (find code value start) := by
  obtain ⟨_, hscan⟩ := exists_scan code value start
  obtain ⟨front, last, rfl, hhalt⟩ := hscan.halts
  have hlength := hscan.length_le
  rw [List.length_append, List.length_singleton] at hlength
  exact ⟨front, last, {
    scans := hscan
    rises := hscan.pairwise
    behind := hscan.le_of_mem
    short := Nat.le_of_add_le_add_right hlength
    halts := hhalt }⟩

/-- The fault of a switch without a landing tells where its walk has met something that is no header. -/
inductive Lost (code : Array UInt8) (start : Nat) : Fault → Prop
  | malformed {position : Nat} {byte : UInt8} : start ≤ position → code[position]? = some byte →
      Lost code start (.malformedSwitch position byte)
  | missing {position : Nat} {cause : DecodeError} : start ≤ position →
      Instruction.Missing code position cause → Lost code start (.decode position cause)

theorem Lost.mono {start start' : Nat} {fault : Fault} (h : Lost code start fault)
    (hle : start' ≤ start) : Lost code start' fault := by
  cases h with
  | malformed hs hbyte => exact .malformed (Nat.le_trans hle hs) hbyte
  | missing hs hmissing => exact .missing (Nat.le_trans hle hs) hmissing

theorem Scans.lost {fault : Fault} (h : Scans code value position trail (.error fault)) :
    Lost code position fault := by
  generalize hr : (Except.error fault : Except Fault Landing) = result at h
  induction h with
  | stop hhalt =>
      cases hhalt with
      | other hread _ =>
          cases hr
          exact .malformed (Nat.le_refl _) (Instruction.getElem?_of_decodeAt hread)
      | unknown hbyte _ =>
          cases hr
          exact .malformed (Nat.le_refl _) hbyte
      | missing hmissing =>
          cases hr
          exact .missing (Nat.le_refl _) hmissing
      | _ => cases hr
  | hop hhop _ ih => exact (ih hr).mono (Nat.le_of_lt hhop.lt.1)

/-- What a switch without a landing reports. -/
theorem lost_of_find {fault : Fault} (h : find code value position = .error fault) :
    Lost code position fault := by
  obtain ⟨_, hscan⟩ := exists_scan code value position
  rw [h] at hscan
  exact hscan.lost

end Landing

end RoomScript
