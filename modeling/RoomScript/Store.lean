import Std.Data.ExtTreeMap

/-!
# The script store

All threads share one store of flags and variables. Flags lie in numbered arrays and are set or
clear; variables are signed words. Nothing is declared: an address that was never written holds a
clear flag or zero. Reading an address still leaves a trace, since the store counts the addresses
that were ever read or written since it was last cleared.
-/
namespace RoomScript

/-- Orders flags by array, then by bit. -/
abbrev flagOrder : UInt8 × UInt8 → UInt8 × UInt8 → Ordering :=
  (lexOrd : Ord (UInt8 × UInt8)).compare

theorem flagOrder_eq_iff {a b : UInt8 × UInt8} : flagOrder a b = .eq ↔ a = b :=
  Std.LawfulEqCmp.compare_eq_iff_eq

structure Store where
  flags : Std.ExtTreeMap (UInt8 × UInt8) Bool flagOrder := ∅
  vars : Std.ExtTreeMap UInt8 Int16 := ∅
  deriving DecidableEq

namespace Store

/-- Whether a flag is set. -/
def flag (s : Store) (array bit : UInt8) : Bool := s.flags.getD (array, bit) false

/-- The value of a variable. -/
def var (s : Store) (id : UInt8) : Int16 := s.vars.getD id 0

/-- Marks a flag as used, leaving its value alone. -/
def touchFlag (s : Store) (array bit : UInt8) : Store :=
  { s with flags := s.flags.insertIfNew (array, bit) false }

/-- Marks a variable as used, leaving its value alone. -/
def touchVar (s : Store) (id : UInt8) : Store :=
  { s with vars := s.vars.insertIfNew id 0 }

def readFlag (s : Store) (array bit : UInt8) : Bool × Store :=
  (s.flag array bit, s.touchFlag array bit)

def setFlag (s : Store) (array bit : UInt8) (value : Bool) : Store :=
  { s with flags := s.flags.insert (array, bit) value }

/-- Turns a flag over and gives its new value. -/
def flipFlag (s : Store) (array bit : UInt8) : Bool × Store :=
  let value := !s.flag array bit
  (value, s.setFlag array bit value)

def readVar (s : Store) (id : UInt8) : Int16 × Store := (s.var id, s.touchVar id)

def setVar (s : Store) (id : UInt8) (value : Int16) : Store :=
  { s with vars := s.vars.insert id value }

/-- Forgets all values and all traces of use. -/
def clear (_ : Store) : Store := {}

/-- How many flags were used. -/
def touchedFlags (s : Store) : Nat := s.flags.size

/-- How many variables were used. -/
def touchedVars (s : Store) : Nat := s.vars.size

/-- The flags that are set, in order. -/
def setFlags (s : Store) : List (UInt8 × UInt8) :=
  (s.flags.toList.filter (·.2)).map (·.1)

/-- The variables that are not zero with their values, in order. -/
def nonzeroVars (s : Store) : List (UInt8 × Int16) := s.vars.toList.filter (·.2 ≠ 0)

@[simp] theorem flag_setFlag (s : Store) (a b a' b' : UInt8) (value : Bool) :
    (s.setFlag a b value).flag a' b' = if (a, b) = (a', b') then value else s.flag a' b' := by
  simp [flag, setFlag, Std.ExtTreeMap.getD_insert]

@[simp] theorem var_setVar (s : Store) (id id' : UInt8) (value : Int16) :
    (s.setVar id value).var id' = if id = id' then value else s.var id' := by
  simp [var, setVar, Std.ExtTreeMap.getD_insert]

@[simp] theorem flag_touchFlag (s : Store) (a b a' b' : UInt8) :
    (s.touchFlag a b).flag a' b' = s.flag a' b' := by
  simp only [flag, touchFlag, Std.ExtTreeMap.getD_insertIfNew]
  split
  · rename_i h
    obtain ⟨h, hn⟩ := h
    rw [Std.ExtTreeMap.getD_eq_fallback]
    simpa [flagOrder_eq_iff.mp h] using hn
  · rfl

@[simp] theorem var_touchVar (s : Store) (id id' : UInt8) :
    (s.touchVar id).var id' = s.var id' := by
  simp only [var, touchVar, Std.ExtTreeMap.getD_insertIfNew]
  split
  · rename_i h
    obtain ⟨h, hn⟩ := h
    rw [Std.ExtTreeMap.getD_eq_fallback]
    simpa [Std.LawfulEqCmp.eq_of_compare h] using hn
  · rfl

@[simp] theorem var_touchFlag (s : Store) (array bit id : UInt8) :
    (s.touchFlag array bit).var id = s.var id := rfl

@[simp] theorem var_setFlag (s : Store) (array bit id : UInt8) (value : Bool) :
    (s.setFlag array bit value).var id = s.var id := rfl

@[simp] theorem flag_touchVar (s : Store) (id array bit : UInt8) :
    (s.touchVar id).flag array bit = s.flag array bit := rfl

@[simp] theorem flag_setVar (s : Store) (id array bit : UInt8) (value : Int16) :
    (s.setVar id value).flag array bit = s.flag array bit := rfl

@[simp] theorem flag_clear (s : Store) (a b : UInt8) : s.clear.flag a b = false := by
  simp [flag, clear]

@[simp] theorem var_clear (s : Store) (id : UInt8) : s.clear.var id = 0 := by
  simp [var, clear]

end Store

end RoomScript
