import RoomScript.Proofs.Store.History
import Mathlib.Algebra.BigOperators.Group.List.Basic
import Mathlib.Algebra.Ring.Nat

/-!
# Flags in bytes

A store may keep its flags in bytes, in a table for each array that makes room for a byte when its flag is first
used. A flag is turned over by turning over the lowest bit of its byte, which is right only because no byte is
ever anything but zero or one. Such a store counts the flags that were used table by table. It cannot be told
from a store that keeps all flags in one table.
-/
namespace RoomScript

/-- A store with a table of bytes for each array. -/
structure NestedStore where
  arrays : Std.ExtTreeMap UInt8 (Std.ExtTreeMap UInt8 UInt8) := ∅
  vars : Std.ExtTreeMap UInt8 Int16 := ∅

namespace NestedStore

/-- The table of an array, which is empty before the array is used. -/
def table (n : NestedStore) (array : UInt8) : Std.ExtTreeMap UInt8 UInt8 := n.arrays.getD array ∅

/-- The byte of a flag. -/
def byte (n : NestedStore) (array bit : UInt8) : UInt8 := (n.table array).getD bit 0

def putTable (n : NestedStore) (array : UInt8) (row : Std.ExtTreeMap UInt8 UInt8) : NestedStore :=
  { n with arrays := n.arrays.insert array row }

/-- Makes room for the byte of a flag. -/
def touchFlag (n : NestedStore) (array bit : UInt8) : NestedStore :=
  n.putTable array ((n.table array).insertIfNew bit 0)

def setByte (n : NestedStore) (array bit value : UInt8) : NestedStore :=
  n.putTable array ((n.table array).insert bit value)

def call (n : NestedStore) : StoreCall → StoreAnswer × NestedStore
  | .readFlag array bit => (.flag (n.byte array bit), n.touchFlag array bit)
  | .setFlag array bit value => (.done, n.setByte array bit (decide (value ≠ 0)).toUInt8)
  | .flipFlag array bit =>
    let value := n.byte array bit ^^^ 1
    (.flag value, n.setByte array bit value)
  | .readVar id => (.var (n.vars.getD id 0), { n with vars := n.vars.insertIfNew id 0 })
  | .setVar id value => (.done, { n with vars := n.vars.insert id value })
  | .clear => (.done, {})

/-- How many flags were used: the sizes of all tables together. -/
def touchedFlags (n : NestedStore) : Nat := (n.arrays.toList.map (·.2.size)).sum

def touchedVars (n : NestedStore) : Nat := n.vars.size

def kind : StoreKind NestedStore where
  empty := {}
  call := call
  touchedFlags := touchedFlags
  touchedVars := touchedVars

variable {n : NestedStore} {s : Store} {array bit array' bit' value : UInt8}

theorem table_putTable (n : NestedStore) (row : Std.ExtTreeMap UInt8 UInt8) :
    (n.putTable array row).table array' = if array = array' then row else n.table array' := by
  simp [table, putTable, Std.ExtTreeMap.getD_insert]

theorem byte_setByte :
    (n.setByte array bit value).byte array' bit' =
      if (array, bit) = (array', bit') then value else n.byte array' bit' := by
  rw [byte, setByte, table_putTable]
  by_cases ha : array = array'
  · subst ha
    simp [byte, Std.ExtTreeMap.getD_insert]
  · simp [byte, ha]

theorem mem_table_setByte :
    bit' ∈ (n.setByte array bit value).table array' ↔
      (array, bit) = (array', bit') ∨ bit' ∈ n.table array' := by
  rw [setByte, table_putTable]
  by_cases ha : array = array'
  · subst ha
    simp
  · simp [ha]

/-- The byte that room is made for is zero, as it was read before. -/
theorem byte_touchFlag : (n.touchFlag array bit).byte array' bit' = n.byte array' bit' := by
  rw [byte, byte, touchFlag, table_putTable]
  by_cases ha : array = array'
  · subst ha
    rw [if_pos rfl, Std.ExtTreeMap.getD_insertIfNew]
    split
    case isTrue h =>
      obtain ⟨hbit, hnew⟩ := h
      rw [Std.ExtTreeMap.getD_eq_fallback (Std.LawfulEqCmp.eq_of_compare hbit ▸ hnew)]
    case isFalse => rfl
  · rw [if_neg ha]

theorem mem_table_touchFlag :
    bit' ∈ (n.touchFlag array bit).table array' ↔
      (array, bit) = (array', bit') ∨ bit' ∈ n.table array' := by
  rw [touchFlag, table_putTable]
  by_cases ha : array = array'
  · subst ha
    simp
  · simp [ha]

/-- The flags that were used, table by table. -/
def usedFlags (n : NestedStore) : List (UInt8 × UInt8) :=
  n.arrays.toList.flatMap fun entry => entry.2.keys.map (entry.1, ·)

theorem length_usedFlags (n : NestedStore) : n.usedFlags.length = n.touchedFlags := by
  simp [usedFlags, touchedFlags, List.length_flatMap, Std.ExtTreeMap.length_keys]

theorem mem_usedFlags : (array, bit) ∈ n.usedFlags ↔ bit ∈ n.table array := by
  have hrow : (array, bit) ∈ n.usedFlags ↔ ∃ row, n.arrays[array]? = some row ∧ bit ∈ row := by
    simp only [usedFlags, List.mem_flatMap, Prod.exists, List.mem_map, Prod.mk.injEq,
      Std.ExtTreeMap.mem_toList_iff_getElem?_eq_some, Std.ExtTreeMap.mem_keys]
    constructor
    · rintro ⟨_, row, hrow, _, hbit, rfl, rfl⟩
      exact ⟨row, hrow, hbit⟩
    · rintro ⟨row, hrow, hbit⟩
      exact ⟨array, row, hrow, bit, hbit, rfl, rfl⟩
  rw [hrow, table, Std.ExtTreeMap.getD_eq_getD_getElem?]
  cases n.arrays[array]? <;> simp

theorem nodup_usedFlags (n : NestedStore) : n.usedFlags.Nodup := by
  rw [usedFlags, List.nodup_flatMap]
  constructor
  · intro entry _
    exact Std.ExtTreeMap.nodup_keys.map (Prod.mk_right_injective entry.1)
  · refine Std.ExtTreeMap.distinct_keys_toList.imp fun {entry other} hne => List.disjoint_left.mpr ?_
    rintro ⟨array, bit⟩ hentry hother
    have harray : entry.1 = array := by
      obtain ⟨_, _, h⟩ := List.mem_map.mp hentry
      exact congrArg Prod.fst h
    have harray' : other.1 = array := by
      obtain ⟨_, _, h⟩ := List.mem_map.mp hother
      exact congrArg Prod.fst h
    exact hne (Std.LawfulEqCmp.compare_eq_iff_eq.mpr (harray.trans harray'.symm))

/-- The bytes stand for the flags of another store. In particular each byte is zero or one. -/
structure StandsFor (n : NestedStore) (s : Store) : Prop where
  byte_eq : ∀ array bit, n.byte array bit = (s.flag array bit).toUInt8
  mem_table_iff : ∀ array bit, bit ∈ n.table array ↔ (array, bit) ∈ s.flags
  vars_eq : n.vars = s.vars

theorem StandsFor.empty : StandsFor {} {} where
  byte_eq array bit := by
    simp [byte, table, Store.flag]
    rfl
  mem_table_iff array bit := by simp [table]
  vars_eq := rfl

theorem StandsFor.touchFlag (h : n.StandsFor s) (array bit : UInt8) :
    (n.touchFlag array bit).StandsFor (s.touchFlag array bit) where
  byte_eq array' bit' := by rw [byte_touchFlag, Store.flag_touchFlag, h.byte_eq]
  mem_table_iff array' bit' := by
    rw [mem_table_touchFlag, h.mem_table_iff]
    simp [Store.touchFlag]
  vars_eq := h.vars_eq

theorem StandsFor.setByte (h : n.StandsFor s) (array bit : UInt8) {flag : Bool}
    (hb : value = flag.toUInt8) :
    (n.setByte array bit value).StandsFor (s.setFlag array bit flag) where
  byte_eq array' bit' := by
    rw [byte_setByte, Store.flag_setFlag, h.byte_eq, hb, apply_ite Bool.toUInt8]
  mem_table_iff array' bit' := by
    rw [mem_table_setByte, h.mem_table_iff]
    simp [Store.setFlag]
  vars_eq := h.vars_eq

theorem StandsFor.call (h : n.StandsFor s) (c : StoreCall) :
    (n.call c).1 = (s.call c).1 ∧ (n.call c).2.StandsFor (s.call c).2 := by
  cases c with
  | readFlag array bit =>
      exact ⟨congrArg StoreAnswer.flag (h.byte_eq array bit), h.touchFlag array bit⟩
  | setFlag array bit value => exact ⟨rfl, h.setByte array bit rfl⟩
  | flipFlag array bit =>
      have hvalue : n.byte array bit ^^^ 1 = (!s.flag array bit).toUInt8 := by
        rw [h.byte_eq]
        cases s.flag array bit <;> rfl
      exact ⟨congrArg StoreAnswer.flag hvalue, h.setByte array bit hvalue⟩
  | readVar id =>
      have hvalue : n.vars.getD id 0 = s.var id := by rw [h.vars_eq, Store.var]
      exact ⟨congrArg StoreAnswer.var hvalue, h.byte_eq, h.mem_table_iff, by
        simp [NestedStore.call, Store.call, Store.readVar, Store.touchVar, h.vars_eq]⟩
  | setVar id value =>
      exact ⟨rfl, h.byte_eq, h.mem_table_iff, by
        simp [NestedStore.call, Store.call, Store.setVar, h.vars_eq]⟩
  | clear => exact ⟨rfl, .empty⟩

theorem StandsFor.touchedFlags_eq (h : n.StandsFor s) : n.touchedFlags = s.touchedFlags := by
  have hperm : n.usedFlags.Perm s.flags.keys := by
    rw [List.perm_ext_iff_of_nodup n.nodup_usedFlags Std.ExtTreeMap.nodup_keys]
    rintro ⟨array, bit⟩
    rw [mem_usedFlags, h.mem_table_iff, Std.ExtTreeMap.mem_keys]
  rw [← length_usedFlags, hperm.length_eq, Std.ExtTreeMap.length_keys, Store.touchedFlags]

theorem standsFor_after (calls : List StoreCall) :
    (kind.after calls).StandsFor (Store.kind.after calls) := by
  induction calls using List.reverseRecOn with
  | nil => exact .empty
  | append_singleton calls c ih =>
      rw [StoreKind.after_concat, StoreKind.after_concat]
      exact (ih.call c).2

/-- No calls tell the two kinds of store apart. -/
theorem kind_alike : kind.Alike Store.kind where
  answer_eq calls c := ((standsFor_after calls).call c).1
  touchedFlags_eq calls := (standsFor_after calls).touchedFlags_eq
  touchedVars_eq calls := congrArg Std.ExtTreeMap.size (standsFor_after calls).vars_eq

end NestedStore

end RoomScript
