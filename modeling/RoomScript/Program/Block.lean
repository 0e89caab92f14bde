import RoomScript.Program

/-!
# Script blocks

A stored script block opens with a table of offsets, one word per function, and the functions follow.
The first offset is also the length of the table. Offsets count from the start of the block, and the
block is kept whole as the code of the program, so they are entry points as they stand.

A block is accepted exactly when its first word can be the length of a table and every word of the
table points behind the table and not past the end of the block. A block that is refused is refused
for its first fault.
-/
namespace RoomScript

namespace Program

/-- The table entry at an index: a word. -/
def tableEntry (block : Array UInt8) (index : Nat) : Nat :=
  (wordOf (block.getD (2 * index) 0) (block.getD (2 * index + 1) 0)).toNat

/-- The program stored in a script block. The table must be a whole, nonzero number of words inside
the block, and every entry must lie between the end of the table and the end of the block. -/
def ofBlock (block : Array UInt8) : Except DecodeError Program :=
  if block.size < 2 then
    .error (.invalidLength block.size)
  else
    let table := tableEntry block 0
    if table = 0 ∨ table % 2 ≠ 0 ∨ block.size < table then
      .error (.invalidOffset 0 table block.size)
    else
      let entries := (List.range (table / 2)).map (tableEntry block)
      match entries.findIdx? fun offset => offset < table ∨ block.size < offset with
      | some index => .error (.invalidOffset index (tableEntry block index) block.size)
      | none => .ok { code := block, entries := entries }

/-- The script block that stores a list of functions: the table of their offsets, then the functions
one after another. -/
def toBlock (functions : List (List UInt8)) : List UInt8 :=
  (startsFrom (2 * functions.length) functions).flatMap (fun o => wordBytes (UInt16.ofNat o)) ++
    functions.flatten

section Accepted

variable {block : Array UInt8} {p : Program} {e : DecodeError} {index : Nat}

/-- The first word of a block can be the length of a table: a nonzero whole number of words that
lie in the block. -/
structure HasTable (block : Array UInt8) : Prop where
  pos : 0 < tableEntry block 0
  even : tableEntry block 0 % 2 = 0
  le_size : tableEntry block 0 ≤ block.size

/-- How many entries the table of a block has. -/
def tableLength (block : Array UInt8) : Nat := tableEntry block 0 / 2

/-- A table entry points behind the table and not past the end of the block. -/
structure PointsInside (block : Array UInt8) (index : Nat) : Prop where
  table_le : tableEntry block 0 ≤ tableEntry block index
  le_size : tableEntry block index ≤ block.size

/-- A block from which a program can be read. -/
structure WellFormedBlock (block : Array UInt8) : Prop where
  two_le_size : 2 ≤ block.size
  hasTable : HasTable block
  entries : ∀ index < tableLength block, PointsInside block index

/-- Why no program can be read from a block. -/
inductive Refuses (block : Array UInt8) : DecodeError → Prop
  | short : block.size < 2 → Refuses block (.invalidLength block.size)
  | table : 2 ≤ block.size → ¬HasTable block →
      Refuses block (.invalidOffset 0 (tableEntry block 0) block.size)
  /-- The first entry that points elsewhere is reported. -/
  | entry {index : Nat} : 2 ≤ block.size → HasTable block → index < tableLength block →
      (∀ earlier < index, PointsInside block earlier) → ¬PointsInside block index →
      Refuses block (.invalidOffset index (tableEntry block index) block.size)

theorem hasTable_iff :
    HasTable block ↔
      ¬(tableEntry block 0 = 0 ∨ tableEntry block 0 % 2 ≠ 0 ∨ block.size < tableEntry block 0) := by
  constructor
  · rintro ⟨hpos, heven, hsize⟩
    omega
  · intro h
    constructor <;> omega

theorem pointsInside_iff :
    PointsInside block index ↔
      ¬(tableEntry block index < tableEntry block 0 ∨ block.size < tableEntry block index) := by
  constructor
  · rintro ⟨htable, hsize⟩
    omega
  · intro h
    constructor <;> omega

/-- The entries of a table, first to last. -/
def tableEntries (block : Array UInt8) : List Nat :=
  (List.range (tableLength block)).map (tableEntry block)

@[simp] theorem length_tableEntries (block : Array UInt8) :
    (tableEntries block).length = tableLength block := by
  rw [tableEntries, List.length_map, List.length_range]

theorem getElem?_tableEntries (block : Array UInt8) (index : Nat) :
    (tableEntries block)[index]? =
      if index < tableLength block then some (tableEntry block index) else none := by
  rw [tableEntries, List.getElem?_map]
  by_cases h : index < tableLength block
  · rw [if_pos h, List.getElem?_range h, Option.map_some]
  · rw [if_neg h, List.getElem?_eq_none (by simpa using h), Option.map_none]

@[simp] theorem getElem_tableEntries (h : index < (tableEntries block).length) :
    (tableEntries block)[index] = tableEntry block index := by
  simp [tableEntries]

/-- The first entry of the table that does not point inside the block. -/
def firstOutside? (block : Array UInt8) : Option Nat :=
  (tableEntries block).findIdx? fun offset => offset < tableEntry block 0 ∨ block.size < offset

theorem firstOutside?_eq_none_iff :
    firstOutside? block = none ↔ ∀ index < tableLength block, PointsInside block index := by
  simp only [firstOutside?, tableEntries, List.findIdx?_eq_none_iff, List.forall_mem_map,
    List.mem_range, decide_eq_false_iff_not, pointsInside_iff]

theorem firstOutside?_eq_some_iff :
    firstOutside? block = some index ↔
      index < tableLength block ∧ ¬PointsInside block index ∧
        ∀ earlier < index, PointsInside block earlier := by
  simp only [firstOutside?, List.findIdx?_eq_some_iff_getElem, length_tableEntries,
    getElem_tableEntries, exists_prop, decide_eq_true_eq, pointsInside_iff, Classical.not_not]

theorem ofBlock_of_short (h : block.size < 2) :
    ofBlock block = .error (.invalidLength block.size) := if_pos h

theorem ofBlock_of_not_hasTable (hs : 2 ≤ block.size) (ht : ¬HasTable block) :
    ofBlock block = .error (.invalidOffset 0 (tableEntry block 0) block.size) := by
  rw [hasTable_iff, Classical.not_not] at ht
  simp only [ofBlock, if_neg (Nat.not_lt.mpr hs), if_pos ht]

/-- With a table, a block is read unless one of its entries points elsewhere. -/
theorem ofBlock_of_hasTable (hs : 2 ≤ block.size) (ht : HasTable block) :
    ofBlock block =
      match firstOutside? block with
      | some index => .error (.invalidOffset index (tableEntry block index) block.size)
      | none => .ok { code := block, entries := tableEntries block } := by
  rw [hasTable_iff] at ht
  simp only [ofBlock, if_neg (Nat.not_lt.mpr hs), if_neg ht]
  rfl

theorem ofBlock_of_wellFormed (h : WellFormedBlock block) :
    ofBlock block = .ok { code := block, entries := tableEntries block } := by
  rw [ofBlock_of_hasTable h.two_le_size h.hasTable, firstOutside?_eq_none_iff.mpr h.entries]

theorem ofBlock_of_refuses (h : Refuses block e) : ofBlock block = .error e := by
  cases h with
  | short hs => exact ofBlock_of_short hs
  | table hs ht => exact ofBlock_of_not_hasTable hs ht
  | entry hs ht hi hearlier hout =>
    rw [ofBlock_of_hasTable hs ht, firstOutside?_eq_some_iff.mpr ⟨hi, hout, hearlier⟩]

/-- A block that is not well formed has a first fault. -/
theorem wellFormed_or_refuses (block : Array UInt8) :
    WellFormedBlock block ∨ ∃ e, Refuses block e := by
  by_cases hs : 2 ≤ block.size
  · by_cases ht : HasTable block
    · cases hfirst : firstOutside? block with
      | none => exact .inl ⟨hs, ht, firstOutside?_eq_none_iff.mp hfirst⟩
      | some index =>
        obtain ⟨hi, hout, hearlier⟩ := firstOutside?_eq_some_iff.mp hfirst
        exact .inr ⟨_, .entry hs ht hi hearlier hout⟩
    · exact .inr ⟨_, .table hs ht⟩
  · exact .inr ⟨_, .short (Nat.lt_of_not_le hs)⟩

theorem wellFormed_of_ofBlock (h : ofBlock block = .ok p) :
    WellFormedBlock block ∧ p = { code := block, entries := tableEntries block } := by
  rcases wellFormed_or_refuses block with hw | ⟨e, he⟩
  · rw [ofBlock_of_wellFormed hw] at h
    exact ⟨hw, (Except.ok.inj h).symm⟩
  · rw [ofBlock_of_refuses he] at h
    cases h

theorem ofBlock_eq_error_iff : ofBlock block = .error e ↔ Refuses block e := by
  refine ⟨fun h => ?_, ofBlock_of_refuses⟩
  rcases wellFormed_or_refuses block with hw | ⟨e', he⟩
  · rw [ofBlock_of_wellFormed hw] at h
    cases h
  · rw [ofBlock_of_refuses he] at h
    exact Except.error.inj h ▸ he

end Accepted

end Program

end RoomScript
