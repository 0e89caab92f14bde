import RoomScript.Assembly
import RoomScript.Proofs.Dispatch.Access
import Mathlib.Data.Int.ModEq

/-!
# Calculation

What an operator computes is told on integers: the exact sum, quotient or shift. A word keeps of it what is left
modulo `2 ^ 16`, and since no two words are congruent, that is all there is to say. Both calculating instructions
write this value into their target and change no other value. With a code that is no operator's, or with a zero
divisor, they change no value at all.
-/
namespace RoomScript

namespace CalcOp

/-- The sixteen bits of a number in two's complement. -/
def bits (x : Int) : Nat := (x % 2 ^ 16).toNat

/-- How many places an operand shifts by. -/
def places (rhs : Int) : Nat := (rhs % 16).toNat

/-- What an operator computes on integers. A quotient is truncated toward zero; a shift to the right rounds
down. -/
def exactValue (op : CalcOp) (lhs rhs : Int) : Int :=
  match op with
  | .add => lhs + rhs
  | .sub => lhs - rhs
  | .mul => lhs * rhs
  | .div => lhs.tdiv rhs
  | .mod => lhs.tmod rhs
  | .or => (bits lhs ||| bits rhs : Nat)
  | .and => (bits lhs &&& bits rhs : Nat)
  | .xor => (bits lhs ^^^ bits rhs : Nat)
  | .not => -1 - lhs
  | .shl => lhs * 2 ^ places rhs
  | .shr => lhs % 2 ^ 16 / 2 ^ places rhs
  | .sar => lhs / 2 ^ places rhs

variable {op : CalcOp} {lhs rhs value : Int16}

/-- The remainder of a word modulo `2 ^ 16` is what its bits say. -/
theorem toInt_emod (x : BitVec 16) : x.toInt % 2 ^ 16 = x.toNat := by
  rw [BitVec.toInt_eq_toNat_bmod]
  exact Int.bmod_emod.trans (Int.emod_eq_of_lt (Int.natCast_nonneg _) (by exact_mod_cast x.isLt))

theorem bits_toInt (x : Int16) : bits x.toInt = x.toBitVec.toNat :=
  (congrArg Int.toNat (toInt_emod x.toBitVec)).trans (Int.toNat_natCast _)

/-- A word is congruent to its bits. -/
theorem toInt_modEq_bits (x : Int16) : x.toInt ≡ (x.toBitVec.toNat : Int) [ZMOD 2 ^ 16] :=
  toInt_emod x.toBitVec ▸ (Int.mod_modEq _ _).symm

/-- A number is congruent to the word that is kept of it. -/
theorem bmod_modEq (x : Int) : x.bmod (2 ^ 16) ≡ x [ZMOD 2 ^ 16] := Int.bmod_emod

/-- No two words are congruent. -/
theorem eq_of_modEq {x y : Int16} (h : x.toInt ≡ y.toInt [ZMOD 2 ^ 16]) : x = y := by
  have hbits : bits x.toInt = bits y.toInt := congrArg Int.toNat h
  rw [bits_toInt, bits_toInt] at hbits
  exact Int16.toBitVec_inj.mp (BitVec.eq_of_toNat_eq hbits)

/-- A negative count is taken modulo sixteen as well. -/
theorem places_toInt (x : Int16) : places x.toInt = (x.toBitVec.smod 16).toNat := by
  have hcount : (x.toBitVec.smod 16).toInt = x.toInt % 16 :=
    BitVec.toInt_smod.trans (Int.fmod_eq_emod_of_nonneg _ (by decide))
  have hnat := toInt_emod (x.toBitVec.smod 16)
  rw [hcount] at hnat
  unfold places
  omega

theorem toInt_or (lhs rhs : Int16) :
    (lhs ||| rhs).toInt ≡ (bits lhs.toInt ||| bits rhs.toInt : Nat) [ZMOD 2 ^ 16] := by
  have h := toInt_modEq_bits (lhs ||| rhs)
  rwa [Int16.toBitVec_or, BitVec.toNat_or, ← bits_toInt, ← bits_toInt] at h

theorem toInt_and (lhs rhs : Int16) :
    (lhs &&& rhs).toInt ≡ (bits lhs.toInt &&& bits rhs.toInt : Nat) [ZMOD 2 ^ 16] := by
  have h := toInt_modEq_bits (lhs &&& rhs)
  rwa [Int16.toBitVec_and, BitVec.toNat_and, ← bits_toInt, ← bits_toInt] at h

theorem toInt_xor (lhs rhs : Int16) :
    (lhs ^^^ rhs).toInt ≡ (bits lhs.toInt ^^^ bits rhs.toInt : Nat) [ZMOD 2 ^ 16] := by
  have h := toInt_modEq_bits (lhs ^^^ rhs)
  rwa [Int16.toBitVec_xor, BitVec.toNat_xor, ← bits_toInt, ← bits_toInt] at h

theorem toInt_not (x : Int16) : (~~~x).toInt ≡ -1 - x.toInt [ZMOD 2 ^ 16] := by
  have h := bmod_modEq (-x.toInt - 1)
  rw [← Int16.toInt_not] at h
  have hsum : -x.toInt - 1 = -1 - x.toInt := by omega
  rwa [hsum] at h

theorem toInt_shl (lhs rhs : Int16) :
    (lhs <<< rhs).toInt ≡ lhs.toInt * 2 ^ places rhs.toInt [ZMOD 2 ^ 16] := by
  have h := toInt_modEq_bits (lhs <<< rhs)
  rw [Int16.toBitVec_shiftLeft, BitVec.shiftLeft_eq', BitVec.toNat_shiftLeft, ← places_toInt,
    Nat.shiftLeft_eq] at h
  push_cast at h
  calc (lhs <<< rhs).toInt
      ≡ lhs.toBitVec.toNat * 2 ^ places rhs.toInt % 2 ^ 16 [ZMOD 2 ^ 16] := h
    _ ≡ lhs.toBitVec.toNat * 2 ^ places rhs.toInt [ZMOD 2 ^ 16] := Int.mod_modEq _ _
    _ ≡ lhs.toInt * 2 ^ places rhs.toInt [ZMOD 2 ^ 16] := (toInt_modEq_bits lhs).symm.mul_right _

theorem toInt_shr (lhs rhs : Int16) :
    (lhs.toUInt16 >>> rhs.toUInt16).toInt16.toInt ≡
      lhs.toInt % 2 ^ 16 / 2 ^ places rhs.toInt [ZMOD 2 ^ 16] := by
  have h := toInt_modEq_bits (lhs.toUInt16 >>> rhs.toUInt16).toInt16
  have hcount : rhs.toUInt16.toNat % 16 = places rhs.toInt := by
    have hbits : rhs.toInt % 2 ^ 16 = rhs.toUInt16.toNat := toInt_emod rhs.toBitVec
    unfold places
    omega
  have hshift : (lhs.toUInt16 >>> rhs.toUInt16).toInt16.toBitVec.toNat =
      lhs.toBitVec.toNat / 2 ^ places rhs.toInt := by
    rw [UInt16.toBitVec_toInt16, UInt16.toNat_toBitVec, UInt16.toNat_shiftRight, hcount,
      Nat.shiftRight_eq_div_pow]
    rfl
  rw [hshift] at h
  push_cast at h
  rwa [← toInt_emod] at h

theorem toInt_sar (lhs rhs : Int16) :
    (lhs >>> rhs).toInt = lhs.toInt / 2 ^ places rhs.toInt := by
  have h : (lhs >>> rhs).toBitVec.toInt = lhs.toBitVec.toInt >>> (rhs.toBitVec.smod 16).toNat := by
    rw [Int16.toBitVec_shiftRight, BitVec.toInt_sshiftRight']
  rw [← places_toInt, Int.shiftRight_eq_div_pow] at h
  exact_mod_cast h

/-- The value of an operation is congruent to what the operator computes on integers. -/
theorem toInt_eval (h : op.eval? lhs rhs = some value) :
    value.toInt ≡ op.exactValue lhs.toInt rhs.toInt [ZMOD 2 ^ 16] := by
  simp only [eval?, Option.ite_none_left_eq_some, Option.some.injEq] at h
  obtain ⟨_, rfl⟩ := h
  cases op with
  | add => exact Int16.toInt_add lhs rhs ▸ bmod_modEq _
  | sub => exact Int16.toInt_sub lhs rhs ▸ bmod_modEq _
  | mul => exact Int16.toInt_mul lhs rhs ▸ bmod_modEq _
  | div => exact Int16.toInt_div lhs rhs ▸ bmod_modEq _
  | mod => exact congrArg (· % 2 ^ 16) (Int16.toInt_mod lhs rhs)
  | or => exact toInt_or lhs rhs
  | and => exact toInt_and lhs rhs
  | xor => exact toInt_xor lhs rhs
  | not => exact toInt_not lhs
  | shl => exact toInt_shl lhs rhs
  | shr => exact toInt_shr lhs rhs
  | sar => exact congrArg (· % 2 ^ 16) (toInt_sar lhs rhs)

theorem no_value_iff (op : CalcOp) (lhs rhs : Int16) :
    op.eval? lhs rhs = none ↔ (op = .div ∨ op = .mod) ∧ rhs = 0 := by
  simp [eval?_eq_none_iff, divides]

/-- An operation has the word congruent to the exact result as its value, unless it divides by zero. -/
theorem eval?_eq_some_iff :
    op.eval? lhs rhs = some value ↔
      ¬((op = .div ∨ op = .mod) ∧ rhs = 0) ∧
        value.toInt ≡ op.exactValue lhs.toInt rhs.toInt [ZMOD 2 ^ 16] := by
  rw [← no_value_iff op lhs rhs]
  constructor
  · intro h
    exact ⟨by simp [h], toInt_eval h⟩
  · rintro ⟨hsome, hvalue⟩
    obtain ⟨other, hother⟩ := Option.ne_none_iff_exists'.mp hsome
    rw [hother, eq_of_modEq ((toInt_eval hother).trans hvalue.symm)]

/-- A remainder has the sign of the left operand and is smaller than the right one, and with the quotient it makes
up the left operand again. -/
theorem remainder_spec {quotient remainder : Int16} (hq : div.eval? lhs rhs = some quotient)
    (hr : mod.eval? lhs rhs = some remainder) :
    lhs.toInt ≡ quotient.toInt * rhs.toInt + remainder.toInt [ZMOD 2 ^ 16] ∧
      |remainder.toInt| < |rhs.toInt| ∧
      (0 ≤ lhs.toInt → 0 ≤ remainder.toInt) ∧ (lhs.toInt ≤ 0 → remainder.toInt ≤ 0) := by
  have hzero : rhs.toInt ≠ 0 := by
    intro h
    have hrhs : rhs = 0 := Int16.toInt_inj.mp h
    exact (eval?_eq_some_iff.mp hq).1 ⟨.inl rfl, hrhs⟩
  have hremainder : remainder.toInt = lhs.toInt.tmod rhs.toInt := by
    simp only [eval?, Option.ite_none_left_eq_some, Option.some.injEq] at hr
    obtain ⟨_, rfl⟩ := hr
    exact Int16.toInt_mod lhs rhs
  have hquotient : quotient.toInt ≡ lhs.toInt.tdiv rhs.toInt [ZMOD 2 ^ 16] := toInt_eval hq
  refine ⟨?_, ?_, ?_, ?_⟩
  · calc lhs.toInt
        = lhs.toInt.tdiv rhs.toInt * rhs.toInt + remainder.toInt := by
          rw [hremainder, Int.tdiv_mul_add_tmod]
      _ ≡ quotient.toInt * rhs.toInt + remainder.toInt [ZMOD 2 ^ 16] :=
          (hquotient.symm.mul_right _).add_right _
  · rw [hremainder, Int.abs_eq_natAbs, Int.abs_eq_natAbs, Int.natAbs_tmod]
    exact_mod_cast Nat.mod_lt _ (Int.natAbs_pos.mpr hzero)
  · intro hlhs
    rw [hremainder]
    exact Int.tmod_nonneg _ hlhs
  · intro hlhs
    rw [hremainder, ← Int.neg_nonneg, ← Int.neg_tmod]
    exact Int.tmod_nonneg _ (Int.neg_nonneg.mpr hlhs)

end CalcOp

/-- An operation that is carried out on a variable fails where it has no value, and says at which position. -/
theorem Store.calculate_snd (s : Store) (position : Nat) (op : CalcOp) (id : UInt8) (rhs : Int16) :
    (s.calculate position op id rhs).2 =
      if (op = .div ∨ op = .mod) ∧ rhs = 0 then .error (.divisionByZero position)
      else .ok .proceed := by
  simp only [calculate, readVar, ← op.no_value_iff (s.var id) rhs]
  cases op.eval? (s.var id) rhs <;> rfl

theorem CalcOp.ofCode?_eq_some {code : UInt8} {op : CalcOp} (h : ofCode? code = some op) :
    code = op.code := by
  unfold ofCode? at h
  split at h <;> cases h <;> rfl

/-- An instruction that calculates, with any bytes for its operands. -/
inductive Calculation where
  /-- The right operand is a value in the code. -/
  | withValue (padding code target : UInt8) (value : Int16)
  /-- The right operand is a variable. -/
  | withVar (code target source : UInt8)
  deriving DecidableEq

namespace Calculation

def instruction : Calculation → Instruction
  | withValue padding code target value =>
    { opcode := .calculate
      operands := padding :: code :: target :: wordBytes value.toUInt16
      length_operands := rfl }
  | withVar code target source =>
    { opcode := .calculate2, operands := [code, target, source], length_operands := rfl }

/-- The byte that names the operator. -/
def code : Calculation → UInt8
  | withValue _ code _ _ => code
  | withVar code _ _ => code

/-- The variable that is the left operand and takes the result. -/
def target : Calculation → UInt8
  | withValue _ _ target _ => target
  | withVar _ target _ => target

/-- The right operand. -/
def operand (s : Store) : Calculation → Int16
  | withValue _ _ _ value => value
  | withVar _ _ source => s.var source

/-- The store once the right operand has been read. -/
def read (s : Store) : Calculation → Store
  | withValue _ _ _ _ => s
  | withVar _ _ source => s.touchVar source

/-- There are no other instructions with one of the two opcodes. -/
theorem exists_instruction {i : Instruction} (h : i.opcode = .calculate ∨ i.opcode = .calculate2) :
    ∃ c : Calculation, c.instruction = i := by
  obtain ⟨opcode, operands, hl⟩ := i
  rcases h with rfl | rfl
  · have hlength : operands.length = 5 := Nat.succ.inj hl
    obtain ⟨padding, rest, rfl⟩ := List.exists_cons_of_length_eq_add_one hlength
    obtain ⟨code, rest, rfl⟩ := List.exists_cons_of_length_eq_add_one (Nat.succ.inj hlength)
    obtain ⟨target, low, high, rfl⟩ :=
      List.length_eq_three.mp (Nat.succ.inj (Nat.succ.inj hlength))
    refine ⟨.withValue padding code target (wordOf low high).toInt16, ?_⟩
    simp [instruction, wordBytes]
  · have hlength : operands.length = 3 := Nat.succ.inj hl
    obtain ⟨code, target, source, rfl⟩ := List.length_eq_three.mp hlength
    exact ⟨.withVar code target source, rfl⟩

/-- The data command that a calculation is read as. -/
def command : Calculation → DataCommand
  | withValue _ code target value => .calculate (CalcOp.ofCode? code) target value
  | withVar code target source => .calculateFrom (CalcOp.ofCode? code) target source

theorem ofInstruction_instruction (c : Calculation) :
    Command.ofInstruction c.instruction = .data c.command := by
  cases c with
  | withValue padding code target value =>
      have hvalue : (wordOf (lowByte value.toUInt16) (highByte value.toUInt16)).toInt16 = value := by
        rw [wordOf_lowByte_highByte]
        rfl
      exact congrArg (fun value => Command.data (.calculate (CalcOp.ofCode? code) target value)) hvalue
  | withVar code target source => rfl

theorem run_command (c : Calculation) (position : Nat) (s : Store) :
    c.command.run position s =
      match CalcOp.ofCode? c.code with
      | none => (c.read s, .ok .proceed)
      | some op => (c.read s).calculate position op c.target (c.operand s) := by
  cases c with
  | withValue padding code target value =>
      simp only [command, Calculation.code]
      cases CalcOp.ofCode? code <;> rfl
  | withVar code target source =>
      simp only [command, Calculation.code]
      cases CalcOp.ofCode? code <;> rfl

theorem agree_read (c : Calculation) (s : Store) (cell : Cell) : (c.read s).Agree s cell := by
  cases c with
  | withValue padding code target value => exact .refl s cell
  | withVar code target source => cases cell <;> simp [read, Store.Agree]

@[simp] theorem var_read (c : Calculation) (s : Store) (id : UInt8) : (c.read s).var id = s.var id :=
  c.agree_read s (.var id)

end Calculation

namespace Machine

variable {p : Program} {slot : Slot} {m : Machine}

/-- What a calculation makes of the machine in front of it. -/
inductive Calculates (m : Machine) (c : Calculation) : Progress → Prop
  /-- The target takes the value. -/
  | stored {op : CalcOp} {value : Int16} {store : Store} :
      c.code = op.code →
      op.eval? (m.store.var c.target) (c.operand m.store) = some value →
      store.var c.target = value → (∀ cell, cell ≠ .var c.target → store.Agree m.store cell) →
      Calculates m c (.running { m.goto (m.thread.pc + c.instruction.width) with store })
  /-- No operator has this code. -/
  | ignored {store : Store} :
      (∀ op : CalcOp, c.code ≠ op.code) → (∀ cell, store.Agree m.store cell) →
      Calculates m c (.running { m.goto (m.thread.pc + c.instruction.width) with store })
  /-- The value does not exist. -/
  | failed {op : CalcOp} {store : Store} :
      c.code = op.code → op.eval? (m.store.var c.target) (c.operand m.store) = none →
      (∀ cell, store.Agree m.store cell) →
      Calculates m c (.stopped { m with store } (.error (.divisionByZero m.thread.pc)))

theorem step_calculates {c : Calculation} (h : p.instructionAt m.thread.pc = .ok c.instruction) :
    m.Calculates c (m.step p slot) := by
  rw [step_data h c.ofInstruction_instruction, c.run_command]
  cases hcode : CalcOp.ofCode? c.code with
  | none =>
      refine .ignored (fun op hop => ?_) (c.agree_read m.store)
      simp [hop] at hcode
  | some op =>
      have hop := CalcOp.ofCode?_eq_some hcode
      simp only [Store.calculate, Store.readVar, Calculation.var_read]
      have hread (cell : Cell) : ((c.read m.store).touchVar c.target).Agree m.store cell :=
        (Store.agree_access (a := .readVar c.target) (by simp [Access.Spares, Access.writes])).trans
          (c.agree_read m.store cell)
      cases hvalue : op.eval? (m.store.var c.target) (c.operand m.store) with
      | none => exact .failed hop hvalue hread
      | some value =>
          refine .stored hop hvalue (by simp) fun cell hcell => ?_
          exact (Store.agree_access (a := .writeVar c.target value) fun _ h => hcell h.symm).trans
            (hread cell)

/-- Each operator has the word that is congruent to its exact result as its value, whatever the operands are, and
it has none just when it divides by zero. Quotient and remainder make up the left operand. An instruction that
calculates gives its target this value and changes nothing else that the store holds; without a value it changes
nothing. -/
theorem calculation_exact :
    (∀ (op : CalcOp) (lhs rhs : Int16),
      (op.eval? lhs rhs = none ↔ (op = .div ∨ op = .mod) ∧ rhs = 0) ∧
        ∀ value, op.eval? lhs rhs = some value ↔
          ¬((op = .div ∨ op = .mod) ∧ rhs = 0) ∧
            value.toInt ≡ op.exactValue lhs.toInt rhs.toInt [ZMOD 2 ^ 16]) ∧
    (∀ (s : Store) (position : Nat) (op : CalcOp) (id : UInt8) (rhs : Int16),
      (s.calculate position op id rhs).2 =
        if (op = .div ∨ op = .mod) ∧ rhs = 0 then .error (.divisionByZero position)
        else .ok .proceed) ∧
    (∀ lhs rhs quotient remainder : Int16,
      CalcOp.div.eval? lhs rhs = some quotient → CalcOp.mod.eval? lhs rhs = some remainder →
        lhs.toInt ≡ quotient.toInt * rhs.toInt + remainder.toInt [ZMOD 2 ^ 16] ∧
          |remainder.toInt| < |rhs.toInt| ∧
          (0 ≤ lhs.toInt → 0 ≤ remainder.toInt) ∧ (lhs.toInt ≤ 0 → remainder.toInt ≤ 0)) ∧
    ∀ (p : Program) (slot : Slot) (m : Machine) (i : Instruction),
      p.instructionAt m.thread.pc = .ok i → i.opcode = .calculate ∨ i.opcode = .calculate2 →
        ∃ c : Calculation, c.instruction = i ∧ m.Calculates c (m.step p slot) := by
  refine ⟨?_, Store.calculate_snd, ?_, ?_⟩
  · intro op lhs rhs
    exact ⟨op.no_value_iff lhs rhs, fun _ => CalcOp.eval?_eq_some_iff⟩
  · intro lhs rhs quotient remainder hq hr
    exact CalcOp.remainder_spec hq hr
  · intro p slot m i hi hop
    obtain ⟨c, rfl⟩ := Calculation.exists_instruction hop
    exact ⟨c, rfl, step_calculates hi⟩

/-- The least word divided by minus one, and a variable that is shifted by itself, fifteen places for minus one. -/
theorem calculation_exact_wrapping :
    let p := Program.ofFunctions [(Line.calculate2 .shr 3 3).encode]
    let m : Machine :=
      { thread := .start 0 0, pool := Pool.vacant, store := ({} : Store).setVar 3 (-1) }
    let i := (Calculation.withVar 10 3 3).instruction
    CalcOp.div.eval? (-32768) (-1) = some (-32768) ∧ CalcOp.mod.eval? (-32768) (-1) = some 0 ∧
      (-32768 : Int16).toInt ≡ (-32768 : Int16).toInt * (-1 : Int16).toInt + (0 : Int16).toInt
        [ZMOD 2 ^ 16] ∧
      p.instructionAt 0 = .ok i ∧ (m.step p 0).machine.store.var 3 = 1 ∧
      ∃ c : Calculation, c.instruction = i ∧ m.Calculates c (m.step p 0) := by
  intro p m i
  obtain ⟨_, _, hremainder, hstep⟩ := calculation_exact
  have hq : CalcOp.div.eval? (-32768) (-1) = some (-32768) := by decide
  have hr : CalcOp.mod.eval? (-32768) (-1) = some 0 := by decide
  have hi : p.instructionAt 0 = .ok i := by decide +kernel
  exact ⟨hq, hr, (hremainder _ _ _ _ hq hr).1, hi, by decide +kernel, hstep p 0 m i hi (.inr rfl)⟩

end Machine

end RoomScript
