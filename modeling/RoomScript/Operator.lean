/-!
# Operators

The operator codes that flag and variable instructions carry as a parameter, and what each operator
computes. Variables are signed sixteen-bit words. Arithmetic wraps around; division truncates toward
zero and the remainder has the sign of the left operand; a shift counts its right operand modulo
sixteen.
-/
namespace RoomScript

/-- What a flag instruction does to a flag. -/
inductive BitOp where
  | clear | set | flip
  deriving DecidableEq

namespace BitOp

def code : BitOp → UInt8
  | .clear => 0
  | .set => 1
  | .flip => 7

def ofCode? : UInt8 → Option BitOp
  | 0 => some .clear
  | 1 => some .set
  | 7 => some .flip
  | _ => none

@[simp] theorem ofCode?_code (op : BitOp) : ofCode? op.code = some op := by
  cases op <;> rfl

end BitOp

/-- The relation that a comparison tests between a variable and a value. -/
inductive CompareOp where
  | eq | gt | ge | lt | le | ne
  /-- The two words have a bit in common. -/
  | and
  deriving DecidableEq

namespace CompareOp

def code : CompareOp → UInt8
  | .eq => 0
  | .gt => 1
  | .ge => 2
  | .lt => 3
  | .le => 4
  | .ne => 5
  | .and => 6

def ofCode? : UInt8 → Option CompareOp
  | 0 => some .eq
  | 1 => some .gt
  | 2 => some .ge
  | 3 => some .lt
  | 4 => some .le
  | 5 => some .ne
  | 6 => some .and
  | _ => none

@[simp] theorem ofCode?_code (op : CompareOp) : ofCode? op.code = some op := by
  cases op <;> rfl

/-- Whether the left operand stands in the relation to the right one. -/
def test (op : CompareOp) (lhs rhs : Int16) : Bool :=
  match op with
  | .eq => lhs = rhs
  | .gt => rhs < lhs
  | .ge => rhs ≤ lhs
  | .lt => lhs < rhs
  | .le => lhs ≤ rhs
  | .ne => lhs ≠ rhs
  | .and => lhs &&& rhs ≠ 0

/-- The relation that a comparison stands for, between exact integers or between their bits. -/
def Relates (op : CompareOp) (lhs rhs : Int16) : Prop :=
  match op with
  | .eq => lhs.toInt = rhs.toInt
  | .gt => lhs.toInt > rhs.toInt
  | .ge => lhs.toInt ≥ rhs.toInt
  | .lt => lhs.toInt < rhs.toInt
  | .le => lhs.toInt ≤ rhs.toInt
  | .ne => lhs.toInt ≠ rhs.toInt
  | .and => ∃ i < 16, lhs.toBitVec.getLsbD i ∧ rhs.toBitVec.getLsbD i

theorem and_ne_zero_iff {lhs rhs : Int16} :
    lhs &&& rhs ≠ 0 ↔ ∃ i < 16, lhs.toBitVec.getLsbD i ∧ rhs.toBitVec.getLsbD i := by
  rw [ne_eq, ← Int16.toBitVec_inj, Int16.toBitVec_and]
  constructor
  · intro h
    apply Classical.byContradiction
    intro hnone
    apply h
    apply BitVec.eq_of_getLsbD_eq
    intro i hi
    rw [BitVec.getLsbD_and]
    cases hl : lhs.toBitVec.getLsbD i with
    | false => simp
    | true => cases hr : rhs.toBitVec.getLsbD i with
      | false => simp
      | true => exact absurd ⟨i, hi, hl, hr⟩ hnone
  · rintro ⟨i, -, hl, hr⟩ h
    have hbit := congrArg (BitVec.getLsbD · i) h
    simp [hl, hr] at hbit

/-- A comparison holds exactly when its operands stand in its relation. -/
theorem test_iff {op : CompareOp} {lhs rhs : Int16} : op.test lhs rhs ↔ op.Relates lhs rhs := by
  cases op with
  | eq => simp only [test, Relates, decide_eq_true_eq, Int16.toInt_inj]
  | gt => simp only [test, Relates, decide_eq_true_eq, Int16.lt_iff_toInt_lt, gt_iff_lt]
  | ge => simp only [test, Relates, decide_eq_true_eq, Int16.le_iff_toInt_le, ge_iff_le]
  | lt => simp only [test, Relates, decide_eq_true_eq, Int16.lt_iff_toInt_lt]
  | le => simp only [test, Relates, decide_eq_true_eq, Int16.le_iff_toInt_le]
  | ne => simp only [test, Relates, decide_eq_true_eq, ne_eq, Int16.toInt_inj]
  | and => simp only [test, Relates, decide_eq_true_eq, and_ne_zero_iff]

end CompareOp

/-- The operation by which a variable takes a new value. -/
inductive CalcOp where
  | add | sub | mul | div | mod | or | and | xor
  /-- Complement of the variable; the right operand is ignored. -/
  | not
  | shl
  /-- Shift right, filling with zeros. -/
  | shr
  /-- Shift right, keeping the sign. -/
  | sar
  deriving DecidableEq

namespace CalcOp

def code : CalcOp → UInt8
  | .add => 0
  | .sub => 1
  | .mul => 2
  | .div => 3
  | .mod => 4
  | .or => 5
  | .and => 6
  | .xor => 7
  | .not => 8
  | .shl => 9
  | .shr => 10
  | .sar => 11

def ofCode? : UInt8 → Option CalcOp
  | 0 => some .add
  | 1 => some .sub
  | 2 => some .mul
  | 3 => some .div
  | 4 => some .mod
  | 5 => some .or
  | 6 => some .and
  | 7 => some .xor
  | 8 => some .not
  | 9 => some .shl
  | 10 => some .shr
  | 11 => some .sar
  | _ => none

@[simp] theorem ofCode?_code (op : CalcOp) : ofCode? op.code = some op := by
  cases op <;> rfl

/-- The operators that have no value for a zero right operand. -/
def divides (op : CalcOp) : Bool := op = .div ∨ op = .mod

/-- The value of an operation, or nothing for a division by zero. -/
def eval? (op : CalcOp) (lhs rhs : Int16) : Option Int16 :=
  if op.divides ∧ rhs = 0 then
    none
  else
    some <| match op with
      | .add => lhs + rhs
      | .sub => lhs - rhs
      | .mul => lhs * rhs
      | .div => lhs / rhs
      | .mod => lhs % rhs
      | .or => lhs ||| rhs
      | .and => lhs &&& rhs
      | .xor => lhs ^^^ rhs
      | .not => ~~~lhs
      | .shl => lhs <<< rhs
      | .shr => (lhs.toUInt16 >>> rhs.toUInt16).toInt16
      | .sar => lhs >>> rhs

theorem eval?_eq_none_iff {op : CalcOp} {lhs rhs : Int16} :
    op.eval? lhs rhs = none ↔ op.divides ∧ rhs = 0 := by
  simp [eval?]

end CalcOp

end RoomScript
