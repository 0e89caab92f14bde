import RoomScript.Program.Block
import RoomScript.Proofs.Relocation.Program

/-!
# Script blocks

The program that is read from a block has the words of the table for entry points. The other way round, the
block that stores some functions is accepted as long as their offsets fit words, and it is the program of
these functions behind the table.
-/
namespace RoomScript

namespace Program

section Stored

variable {functions : List (List UInt8)} {words : List UInt16} {index : Nat}

@[simp] theorem length_flatMap_wordBytes (words : List UInt16) :
    (words.flatMap wordBytes).length = 2 * words.length := by
  induction words with
  | nil => rfl
  | cons w words ih =>
      rw [List.flatMap_cons, List.length_append, ih, length_wordBytes, List.length_cons]
      omega

/-- Written words lie two bytes apart, each with its low byte first. -/
theorem getElem?_flatMap_wordBytes (words : List UInt16) (index : Nat) :
    (words.flatMap wordBytes)[2 * index]? = words[index]?.map lowByte ∧
      (words.flatMap wordBytes)[2 * index + 1]? = words[index]?.map highByte := by
  induction words generalizing index with
  | nil => exact ⟨rfl, rfl⟩
  | cons w words ih =>
      cases index with
      | zero => exact ⟨rfl, rfl⟩
      | succ index => exact ih index

/-- A table entry of a block that opens with some words is one of them. -/
theorem tableEntry_of_words {word : UInt16} (rest : List UInt8) (h : words[index]? = some word) :
    tableEntry (words.flatMap wordBytes ++ rest).toArray index = word.toNat := by
  have hlt : 2 * index + 1 < (words.flatMap wordBytes).length := by
    have hi := (List.getElem?_eq_some_iff.mp h).1
    rw [length_flatMap_wordBytes]
    omega
  obtain ⟨hlow, hhigh⟩ := getElem?_flatMap_wordBytes words index
  rw [h] at hlow hhigh
  have hbyte {offset : Nat} {b : UInt8} (ho : offset < (words.flatMap wordBytes).length)
      (hb : (words.flatMap wordBytes)[offset]? = some b) :
      (words.flatMap wordBytes ++ rest).toArray.getD offset 0 = b := by
    rw [Array.getD_eq_getD_getElem?, List.getElem?_toArray, List.getElem?_append_left ho, hb]
    rfl
  rw [tableEntry, hbyte (by omega) hlow, hbyte hlt hhigh, wordOf_lowByte_highByte]

/-- The same functions placed farther on start as much farther on. -/
theorem startsFrom_add (start d : Nat) (functions : List (List UInt8)) :
    startsFrom (start + d) functions = (startsFrom start functions).map (· + d) := by
  induction functions generalizing start with
  | nil => rfl
  | cons f rest ih =>
      rw [startsFrom, startsFrom, List.map_cons, Nat.add_right_comm, ih]

/-- The words of the table in front of some functions. -/
def tableWords (functions : List (List UInt8)) : List UInt16 :=
  (startsFrom (2 * functions.length) functions).map UInt16.ofNat

@[simp] theorem length_tableWords (functions : List (List UInt8)) :
    (tableWords functions).length = functions.length := by
  rw [tableWords, List.length_map, length_startsFrom]

theorem toBlock_eq (functions : List (List UInt8)) :
    toBlock functions = (tableWords functions).flatMap wordBytes ++ functions.flatten := by
  rw [toBlock, tableWords, List.flatMap_map]

theorem size_toBlock (functions : List (List UInt8)) :
    (toBlock functions).toArray.size = 2 * functions.length + functions.flatten.length := by
  rw [List.size_toArray, toBlock_eq, List.length_append, length_flatMap_wordBytes, length_tableWords]

/-- The functions' offsets can be written as words. -/
def OffsetsFit (functions : List (List UInt8)) : Prop :=
  ∀ offset ∈ startsFrom (2 * functions.length) functions, offset < UInt16.size

/-- The table of a stored block holds the offset of each function. -/
theorem tableEntry_toBlock (h : OffsetsFit functions) (hi : index < functions.length) :
    tableEntry (toBlock functions).toArray index =
      2 * functions.length + (functions.take index).flatten.length := by
  have hstart := getElem?_startsFrom (2 * functions.length) functions index hi
  have hfits := h _ (List.mem_of_getElem? hstart)
  have hword : (tableWords functions)[index]? =
      some (UInt16.ofNat (2 * functions.length + (functions.take index).flatten.length)) := by
    rw [tableWords, List.getElem?_map, hstart, Option.map_some]
  rw [toBlock_eq, tableEntry_of_words _ hword, UInt16.toNat_ofNat_of_lt' hfits]

/-- A block that stores at least one function is well formed. -/
theorem wellFormed_toBlock (hn : functions ≠ []) (h : OffsetsFit functions) :
    WellFormedBlock (toBlock functions).toArray := by
  have hpos := List.length_pos_iff.mpr hn
  have hsize := size_toBlock functions
  have htable : tableEntry (toBlock functions).toArray 0 = 2 * functions.length :=
    tableEntry_toBlock h hpos
  refine ⟨by omega, ⟨by omega, by omega, by omega⟩, fun index hi => ?_⟩
  have hi : index < functions.length := by
    rw [tableLength, htable] at hi
    omega
  have hentry := tableEntry_toBlock h hi
  have hsplit : functions.flatten.length =
      (functions.take index).flatten.length + (functions.drop index).flatten.length := by
    rw [← List.length_append, ← List.flatten_append, List.take_append_drop]
  constructor <;> omega

/-- The table in front of some functions. -/
def table (functions : List (List UInt8)) : Array UInt8 :=
  ((tableWords functions).flatMap wordBytes).toArray

@[simp] theorem size_table (functions : List (List UInt8)) :
    (table functions).size = 2 * functions.length := by
  rw [table, List.size_toArray, length_flatMap_wordBytes, length_tableWords]

theorem tableEntries_toBlock (hn : functions ≠ []) (h : OffsetsFit functions) :
    tableEntries (toBlock functions).toArray =
      (startsFrom 0 functions).map (· + 2 * functions.length) := by
  have htable : tableEntry (toBlock functions).toArray 0 = 2 * functions.length :=
    tableEntry_toBlock h (List.length_pos_iff.mpr hn)
  rw [← startsFrom_add, Nat.zero_add]
  have hlength : tableLength (toBlock functions).toArray = functions.length := by
    rw [tableLength, htable, Nat.mul_div_cancel_left _ (by decide : 0 < 2)]
  apply List.ext_getElem?
  intro index
  rw [getElem?_tableEntries, hlength]
  by_cases hi : index < functions.length
  · rw [if_pos hi, getElem?_startsFrom _ _ _ hi, tableEntry_toBlock h hi]
  · rw [if_neg hi, List.getElem?_eq_none (by simpa using hi)]

/-- A stored block is read as the program of its functions behind their table. -/
theorem ofBlock_toBlock (hn : functions ≠ []) (h : OffsetsFit functions) :
    ofBlock (toBlock functions).toArray = .ok ((ofFunctions functions).behind (table functions)) := by
  have hcode : (toBlock functions).toArray = table functions ++ functions.flatten.toArray := by
    rw [toBlock_eq, table, List.append_toArray]
  rw [ofBlock_of_wellFormed (wellFormed_toBlock hn h), tableEntries_toBlock hn h, behind,
    size_table, hcode]
  rfl

end Stored

/-- A program can be read from the well-formed blocks and from no others: the whole block is its code and the
words of the table are its entry points; any other block is refused for its first fault. A block that stores
functions whose offsets fit words is read as these functions, each moved behind the table. -/
theorem script_blocks :
    (∀ block : Array UInt8,
      ((∃ p, ofBlock block = .ok p) ↔ WellFormedBlock block) ∧
      (∀ p, ofBlock block = .ok p →
        p.code = block ∧ p.entries.length = tableLength block ∧
          (∀ index < tableLength block, p.entries[index]? = some (tableEntry block index)) ∧
          ∀ event, p.entry? event =
            if event.toNat < tableLength block then some (tableEntry block event.toNat) else none) ∧
      ∀ e, ofBlock block = .error e ↔ Refuses block e) ∧
    ∀ functions : List (List UInt8), functions ≠ [] → OffsetsFit functions →
      ∃ p, ofBlock (toBlock functions).toArray = .ok p ∧
        p.code = (toBlock functions).toArray ∧
        p.entries = (ofFunctions functions).entries.map (· + 2 * functions.length) ∧
        (∀ event, p.entry? event =
          (Program.entry? (ofFunctions functions) event).map (· + 2 * functions.length)) ∧
        (∀ event, p.entry? event =
          if event.toNat < functions.length then
            some (2 * functions.length + (functions.take event.toNat).flatten.length)
          else none) ∧
        ∀ position, p.instructionAt (position + 2 * functions.length) =
          ((ofFunctions functions).instructionAt position).mapError
            (DecodeError.shift (2 * functions.length)) := by
  constructor
  · intro block
    refine ⟨⟨?_, fun hw => ⟨_, ofBlock_of_wellFormed hw⟩⟩, ?_, fun e => ofBlock_eq_error_iff⟩
    · rintro ⟨p, hp⟩
      exact (wellFormed_of_ofBlock hp).1
    · intro p hp
      obtain ⟨-, rfl⟩ := wellFormed_of_ofBlock hp
      refine ⟨rfl, length_tableEntries block, fun index hi => ?_, fun event => ?_⟩
      · rw [getElem?_tableEntries, if_pos hi]
      · exact getElem?_tableEntries block event.toNat
  · intro functions hn hfit
    have hread := ofBlock_toBlock hn hfit
    have hentry : ∀ event, entry? ((ofFunctions functions).behind (table functions)) event =
        (Program.entry? (ofFunctions functions) event).map (· + 2 * functions.length) := by
      intro event
      rw [entry?_behind, size_table]
    refine ⟨_, hread, ?_, ?_, hentry, fun event => ?_, fun position => ?_⟩
    · rw [(wellFormed_of_ofBlock hread).2]
    · rw [behind, size_table]
    · rw [hentry, entry?_ofFunctions]
      split
      · rw [Option.map_some, Nat.add_comm]
      · rfl
    · rw [← size_table, instructionAt_behind]

/-- Two functions, the second of them empty: its entry point is the end of the block. -/
theorem script_blocks_empty_last :
    let functions : List (List UInt8) := [[0x29, 7, 1, 0], []]
    functions ≠ [] ∧ OffsetsFit functions ∧ toBlock functions = [4, 0, 8, 0, 0x29, 7, 1, 0] ∧
      ∃ p, ofBlock (toBlock functions).toArray = .ok p ∧
        p.code = (toBlock functions).toArray ∧
        p.entries = (ofFunctions functions).entries.map (· + 4) ∧
        (∀ event, p.entry? event =
          (Program.entry? (ofFunctions functions) event).map (· + 4)) ∧
        (∀ event, p.entry? event =
          if event.toNat < 2 then some (4 + (functions.take event.toNat).flatten.length) else none) ∧
        ∀ position, p.instructionAt (position + 4) =
          ((ofFunctions functions).instructionAt position).mapError (DecodeError.shift 4) := by
  have hn : [[0x29, 7, 1, 0], []] ≠ ([] : List (List UInt8)) := List.cons_ne_nil _ _
  have hfit : OffsetsFit [[0x29, 7, 1, 0], []] := by
    unfold OffsetsFit
    decide
  exact ⟨hn, hfit, by decide, script_blocks.2 _ hn hfit⟩

end Program

end RoomScript
