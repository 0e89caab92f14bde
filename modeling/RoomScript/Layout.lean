/-!
# Bytes and layouts

Script data is a sequence of bytes. A word is two of them, the low byte first; a signed word is the
same two bytes read in two's complement. A layout says how a value lies in a run of bytes: how many it
takes, how it is read off the front of a list, and how it is written. Records are laid out field after
field, in declaration order, with `pair`; `iso` changes the tuple of fields into the record. A lawful
layout reads back what it wrote in front of any rest, reads nothing but what it writes, and fails to
read only where bytes are missing. The layouts below are lawful, and the combinators keep that.
-/
namespace RoomScript

/-- The word made of two bytes, the low one first. -/
def wordOf (low high : UInt8) : UInt16 := UInt16.ofNat (low.toNat + 256 * high.toNat)

def lowByte (w : UInt16) : UInt8 := UInt8.ofNat w.toNat

def highByte (w : UInt16) : UInt8 := UInt8.ofNat (w.toNat / 256)

/-- The two bytes of a word in the order in which they are stored. -/
def wordBytes (w : UInt16) : List UInt8 := [lowByte w, highByte w]

@[simp] theorem toNat_wordOf (low high : UInt8) :
    (wordOf low high).toNat = low.toNat + 256 * high.toNat := by
  have hl := low.toNat_lt
  have hh := high.toNat_lt
  simp only [wordOf, UInt16.toNat_ofNat']
  omega

@[simp] theorem lowByte_wordOf (low high : UInt8) : lowByte (wordOf low high) = low := by
  apply UInt8.toNat_inj.mp
  have hl := low.toNat_lt
  simp only [lowByte, toNat_wordOf, UInt8.toNat_ofNat']
  omega

@[simp] theorem highByte_wordOf (low high : UInt8) : highByte (wordOf low high) = high := by
  apply UInt8.toNat_inj.mp
  have hl := low.toNat_lt
  have hh := high.toNat_lt
  simp only [highByte, toNat_wordOf, UInt8.toNat_ofNat']
  omega

@[simp] theorem wordOf_lowByte_highByte (w : UInt16) : wordOf (lowByte w) (highByte w) = w := by
  apply UInt16.toNat_inj.mp
  have hw := w.toNat_lt
  simp only [toNat_wordOf, lowByte, highByte, UInt8.toNat_ofNat']
  omega

@[simp] theorem length_wordBytes (w : UInt16) : (wordBytes w).length = 2 := rfl

/-- Two lower-case hexadecimal digits. -/
def hexByte (b : UInt8) : String :=
  String.ofList [Nat.digitChar (b.toNat / 16), Nat.digitChar (b.toNat % 16)]

structure Layout (α : Type) where
  /-- How many bytes a value takes. -/
  width : Nat
  /-- Reads a value off the front and gives back the rest, or nothing if the bytes run out. -/
  read : List UInt8 → Option (α × List UInt8)
  write : α → List UInt8

namespace Layout

variable {α β : Type}

/-- The value at the front of a list of bytes, whatever follows it. -/
def read? (l : Layout α) (bytes : List UInt8) : Option α := (l.read bytes).map (·.1)

structure Lawful (l : Layout α) : Prop where
  length_write (a : α) : (l.write a).length = l.width
  read_write (a : α) (rest : List UInt8) : l.read (l.write a ++ rest) = some (a, rest)
  eq_write_of_read {bytes rest : List UInt8} {a : α} :
    l.read bytes = some (a, rest) → bytes = l.write a ++ rest
  exists_read {bytes : List UInt8} : l.width ≤ bytes.length → ∃ v, l.read bytes = some v

namespace Lawful

variable {l : Layout α}

theorem read?_write (h : l.Lawful) (a : α) (rest : List UInt8) :
    l.read? (l.write a ++ rest) = some a := by
  simp [read?, h.read_write]

/-- A value is read exactly where there are bytes enough for one. -/
theorem read?_isSome_iff (h : l.Lawful) {bytes : List UInt8} :
    (l.read? bytes).isSome ↔ l.width ≤ bytes.length := by
  constructor
  · intro hs
    cases hr : l.read bytes with
    | none => simp [read?, hr] at hs
    | some v => simp [h.eq_write_of_read hr, h.length_write]
  · intro hle
    obtain ⟨v, hv⟩ := h.exists_read hle
    simp [read?, hv]

/-- Bytes that read as a value are the bytes written for it, as far as the layout reaches. -/
theorem take_eq_write (h : l.Lawful) {bytes : List UInt8} {a : α} (hr : l.read? bytes = some a) :
    bytes.take l.width = l.write a := by
  obtain ⟨⟨a', rest⟩, hv, rfl⟩ := Option.map_eq_some_iff.mp hr
  rw [h.eq_write_of_read hv, ← h.length_write a', List.take_left']
  rfl

/-- What is read depends on the bytes that the layout covers, and on all of them. -/
theorem read?_eq_iff (h : l.Lawful) {bytes bytes' : List UInt8} (hb : l.width ≤ bytes.length)
    (hb' : l.width ≤ bytes'.length) :
    l.read? bytes = l.read? bytes' ↔ bytes.take l.width = bytes'.take l.width := by
  obtain ⟨a, ha⟩ := Option.isSome_iff_exists.mp (h.read?_isSome_iff.mpr hb)
  obtain ⟨a', ha'⟩ := Option.isSome_iff_exists.mp (h.read?_isSome_iff.mpr hb')
  constructor
  · intro heq
    rw [ha, ha', Option.some.injEq] at heq
    rw [h.take_eq_write ha, h.take_eq_write ha', heq]
  · intro heq
    rw [h.take_eq_write ha] at heq
    rw [ha, ← List.take_append_drop l.width bytes', ← heq, h.read?_write]

end Lawful

def byte : Layout UInt8 where
  width := 1
  read
    | b :: rest => some (b, rest)
    | [] => none
  write b := [b]

theorem lawful_byte : byte.Lawful where
  length_write _ := rfl
  read_write _ _ := rfl
  eq_write_of_read {bytes rest a} h := by
    cases bytes with
    | nil => simp [byte] at h
    | cons b bytes =>
      simp only [byte, Option.some.injEq, Prod.mk.injEq] at h
      simp [byte, h.1, h.2]
  exists_read {bytes} h := by
    cases bytes with
    | nil => simp [byte] at h
    | cons b bytes => exact ⟨_, rfl⟩

def word : Layout UInt16 where
  width := 2
  read
    | low :: high :: rest => some (wordOf low high, rest)
    | _ => none
  write := wordBytes

theorem lawful_word : word.Lawful where
  length_write _ := rfl
  read_write a rest := by simp [word, wordBytes]
  eq_write_of_read {bytes rest a} h := by
    match bytes with
    | [] | [_] => simp [word] at h
    | low :: high :: bytes =>
      simp only [word, Option.some.injEq, Prod.mk.injEq] at h
      obtain ⟨rfl, rfl⟩ := h
      simp [word, wordBytes]
  exists_read {bytes} h := by
    match bytes with
    | [] | [_] => simp [word] at h
    | low :: high :: bytes => exact ⟨_, rfl⟩

/-- One value after another. -/
def pair (l : Layout α) (r : Layout β) : Layout (α × β) where
  width := l.width + r.width
  read bytes := do
    let (a, rest) ← l.read bytes
    let (b, rest) ← r.read rest
    return ((a, b), rest)
  write v := l.write v.1 ++ r.write v.2

theorem Lawful.pair {l : Layout α} {r : Layout β} (hl : l.Lawful) (hr : r.Lawful) :
    (l.pair r).Lawful where
  length_write v := by simp [Layout.pair, hl.length_write, hr.length_write]
  read_write v rest := by simp [Layout.pair, hl.read_write, hr.read_write]
  eq_write_of_read {bytes rest v} h := by
    simp only [Layout.pair, Option.bind_eq_bind, Option.bind_eq_some_iff, Option.pure_def,
      Option.some.injEq, Prod.mk.injEq] at h
    obtain ⟨⟨a, mid⟩, ha, ⟨b, last⟩, hb, rfl, rfl⟩ := h
    have hm : mid = r.write b ++ last := hr.eq_write_of_read hb
    simp [Layout.pair, hl.eq_write_of_read ha, hm]
  exists_read {bytes} h := by
    simp only [Layout.pair] at h
    obtain ⟨⟨a, mid⟩, ha⟩ := hl.exists_read (Nat.le_trans (Nat.le_add_right _ _) h)
    have hb := congrArg List.length (hl.eq_write_of_read ha)
    simp only [List.length_append, hl.length_write] at hb
    have hmid : r.width ≤ mid.length := by omega
    obtain ⟨⟨b, last⟩, hm⟩ := hr.exists_read hmid
    exact ⟨((a, b), last), by simp [Layout.pair, ha, hm]⟩

/-- The same bytes, read as another type. -/
def iso (l : Layout α) (f : α → β) (g : β → α) : Layout β where
  width := l.width
  read bytes := (l.read bytes).map fun v => (f v.1, v.2)
  write v := l.write (g v)

theorem Lawful.iso {l : Layout α} {f : α → β} {g : β → α} (hl : l.Lawful)
    (hfg : ∀ b, f (g b) = b) (hgf : ∀ a, g (f a) = a) : (l.iso f g).Lawful where
  length_write v := hl.length_write _
  read_write v rest := by simp [Layout.iso, hl.read_write, hfg]
  eq_write_of_read {bytes rest v} h := by
    simp only [Layout.iso, Option.map_eq_some_iff, Prod.mk.injEq] at h
    obtain ⟨⟨a, last⟩, ha, rfl, rfl⟩ := h
    simp [Layout.iso, hgf, hl.eq_write_of_read ha]
  exists_read {bytes} h := by
    obtain ⟨v, hv⟩ := hl.exists_read h
    exact ⟨(f v.1, v.2), by simp [Layout.iso, hv]⟩

/-- A signed word. -/
def int : Layout Int16 := word.iso (·.toInt16) (·.toUInt16)

theorem lawful_int : int.Lawful :=
  lawful_word.iso Int16.toInt16_toUInt16 UInt16.toUInt16_toInt16

/-- No value at all. -/
def empty : Layout (Vector α 0) where
  width := 0
  read bytes := some (#v[], bytes)
  write _ := []

theorem lawful_empty : (empty : Layout (Vector α 0)).Lawful where
  length_write _ := rfl
  read_write a rest := by simp [empty]
  eq_write_of_read {bytes rest a} h := by simp_all [empty]
  exists_read _ := ⟨_, rfl⟩

/-- A fixed number of equal fields. -/
def repeated (l : Layout α) : (n : Nat) → Layout (Vector α n)
  | 0 => empty
  | n + 1 => ((l.repeated n).pair l).iso (fun v => v.1.push v.2) (fun v => (v.pop, v.back))

theorem Lawful.repeated {l : Layout α} (h : l.Lawful) (n : Nat) : (l.repeated n).Lawful := by
  induction n with
  | zero => exact lawful_empty
  | succ n ih => exact (ih.pair h).iso Vector.push_pop_back (fun v => by simp [Vector.back])

end Layout

end RoomScript
