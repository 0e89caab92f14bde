import RoomScript.Proofs.Structured.Build

/-!
# Drafts of a function

A draft keeps account of what the steps of assembly have written, without any bytes: the lines in the order in
which they were written and, for a line whose block has been closed, the length that its last close has filled
in. A listing that is written step by step goes along with the draft of the same steps: its code is the bytes
of the draft's entries one behind the other, whatever blocks were closed in whatever order and how often.
-/
namespace RoomScript

namespace Line

@[simp] theorem spanning_spanning (l : Line) (n m : Nat) :
    (l.spanning n).spanning m = l.spanning m := by
  simp [spanning, wordBytes]

end Line

/-- One line that was written, and the length that was filled in last, if its block has been closed. -/
structure Entry where
  line : Line
  length : Option Nat := none
  deriving DecidableEq

namespace Entry

variable {e : Entry}

/-- The bytes of an instruction: its opcode and its operands with zeros behind them, but for the two bytes at 2
and 3, which hold the length when one was filled in. -/
def bytes (e : Entry) : List UInt8 :=
  match e.length with
  | none => e.line.encode
  | some n =>
    (e.line.encode.set 2 (lowByte (UInt16.ofNat n))).set 3 (highByte (UInt16.ofNat n))

/-- The entry as a line whose operands hold the length. -/
def filled (e : Entry) : Line := e.length.elim e.line e.line.spanning

/-- The operands fit the width of the opcode; a length that was filled in lies within that width, and fits a
word. -/
structure WellFormed (e : Entry) : Prop where
  fits : e.line.Fits
  wide : ∀ n ∈ e.length, 4 ≤ e.line.opcode.width
  short : ∀ n ∈ e.length, n < UInt16.size

@[simp] theorem opcode_filled (e : Entry) : e.filled.opcode = e.line.opcode := by
  cases h : e.length <;> simp [filled, h]

@[simp] theorem spanning_filled (e : Entry) (n : Nat) : e.filled.spanning n = e.line.spanning n := by
  cases h : e.length <;> simp [filled, h]

theorem WellFormed.fits_filled (h : e.WellFormed) : e.filled.Fits := by
  cases hl : e.length with
  | none => simpa [filled, hl] using h.fits
  | some n => simpa [filled, hl] using Line.fits_spanning h.fits (h.wide n hl) n

theorem WellFormed.encode_filled (h : e.WellFormed) : e.filled.encode = e.bytes := by
  cases hl : e.length with
  | none => simp [filled, bytes, hl]
  | some n => simp [filled, bytes, hl, Line.set_encode h.fits (h.wide n hl)]

/-- How many bytes entries take. -/
def extent (entries : List Entry) : Nat := Line.extent (entries.map (·.line))

theorem extent_filled (entries : List Entry) : Line.extent (entries.map filled) = extent entries := by
  induction entries with
  | nil => rfl
  | cons e entries ih =>
      simp only [extent, List.map_cons, Line.extent_cons, opcode_filled] at ih ⊢
      rw [ih]

end Entry

/-- What some steps have written. A block stands at the number of the entry that opened it. -/
structure Draft where
  entries : List Entry := []
  blocks : List Block := []
  deriving DecidableEq

namespace Draft

variable {d : Draft} {l l' : Listing} {b : Block} {line : Line} {entries : List Entry}

/-- Writes lines. -/
def write (d : Draft) (lines : List Line) : Draft :=
  { d with entries := d.entries ++ lines.map fun line => { line } }

/-- Writes a line that opens a block. -/
def opening (d : Draft) (line : Line) : Draft :=
  { d.write [line] with blocks := d.blocks ++ [⟨line.opcode, d.entries.length⟩] }

/-- How many bytes lie between the end of the line that opened a block and the end of the code. -/
def behind (d : Draft) (b : Block) : Nat := Entry.extent (d.entries.drop (b.position + 1))

/-- Fills in the length of a block. -/
def fill (d : Draft) (b : Block) : Draft :=
  { d with entries := d.entries.modify b.position fun e => { e with length := some (d.behind b) } }

/-- Performs one step of assembly. Raw bytes leave no entry. -/
def perform (d : Draft) : Step → Draft
  | .emit lines => d.write lines
  | .raw _ => d
  | .opening line => d.opening line
  | .openElse block =>
    match d.blocks[block]? with
    | none => d
    | some b => (d.opening .elseCk).fill b
  | .close closer block =>
    match d.blocks[block]? with
    | none => d
    | some b => (d.write (closer.lines b)).fill b

/-- The draft of some steps. -/
def ofSteps (steps : List Step) : Draft := steps.foldl perform {}

/-- The lines of a draft, with the lengths filled in. -/
def lines (d : Draft) : List Line := d.entries.map Entry.filled

/-- The block as a listing knows it, by the position of the line that opened it. -/
def locate (entries : List Entry) (b : Block) : Block :=
  { b with position := Entry.extent (entries.take b.position) }

/-- A block was opened by a line that has room for a length. -/
def Opened (entries : List Entry) (b : Block) : Prop :=
  ∃ e, entries[b.position]? = some e ∧ e.line.opcode = b.opcode ∧ 4 ≤ b.opcode.width

/-- A listing is the bytes of a draft. -/
structure Written (d : Draft) (l : Listing) : Prop where
  code : l.code = Line.encodeAll d.lines
  blocks : l.blocks = d.blocks.map (locate d.entries)
  entries : ∀ e ∈ d.entries, e.WellFormed
  opened : ∀ b ∈ d.blocks, Opened d.entries b

theorem Opened.lt (h : Opened entries b) : b.position < entries.length := by
  obtain ⟨e, he, _⟩ := h
  exact (List.getElem?_eq_some_iff.mp he).1

theorem Opened.append (h : Opened entries b) (more : List Entry) : Opened (entries ++ more) b := by
  obtain ⟨e, he, hop⟩ := h
  refine ⟨e, ?_, hop⟩
  rw [List.getElem?_append_left (List.getElem?_eq_some_iff.mp he).1, he]

theorem Opened.locate_append (h : Opened entries b) (more : List Entry) :
    locate (entries ++ more) b = locate entries b := by
  simp only [locate, List.take_append_of_le_length (Nat.le_of_lt h.lt)]

theorem Written.fits_lines (h : d.Written l) : ∀ line ∈ d.lines, line.Fits := by
  intro line hline
  obtain ⟨e, he, rfl⟩ := List.mem_map.mp hline
  exact (h.entries e he).fits_filled

theorem Written.length_code (h : d.Written l) : l.code.length = Entry.extent d.entries := by
  rw [h.code, Line.length_encodeAll h.fits_lines, lines, Entry.extent_filled]

theorem Written.length_blocks (h : d.Written l) : l.blocks.length = d.blocks.length := by
  rw [h.blocks, List.length_map]

theorem Written.write {lines : List Line} (h : d.Written l) (hf : ∀ line ∈ lines, line.Fits) :
    (d.write lines).Written { l with code := l.code ++ Line.encodeAll lines } where
  code := by
    have hfresh : (lines.map fun line => ({ line } : Entry)).map Entry.filled = lines := by
      rw [List.map_map]
      exact List.map_id' lines
    simp only [h.code, Draft.lines, Draft.write, List.map_append, hfresh, Line.encodeAll_append]
  blocks := by
    rw [h.blocks]
    exact List.map_congr_left fun b hb => ((h.opened b hb).locate_append _).symm
  entries e he := by
    rcases List.mem_append.mp he with he | he
    · exact h.entries e he
    · obtain ⟨line, hline, rfl⟩ := List.mem_map.mp he
      exact ⟨hf line hline, by simp, by simp⟩
  opened b hb := (h.opened b hb).append _

/-- A block can be named once its opening line is written. -/
theorem Written.named (h : d.Written l) (hb : Opened d.entries b) :
    Written { d with blocks := d.blocks ++ [b] }
      { l with blocks := l.blocks ++ [locate d.entries b] } where
  code := h.code
  blocks := by rw [h.blocks, List.map_append, List.map_singleton]
  entries := h.entries
  opened := by
    simp only [List.forall_mem_append, List.forall_mem_singleton]
    exact ⟨h.opened, hb⟩

theorem Written.opening (h : d.Written l) (hf : line.Fits) (hw : 4 ≤ line.opcode.width) :
    (d.opening line).Written
      { code := l.code ++ line.encode, blocks := l.blocks ++ [⟨line.opcode, l.code.length⟩] } := by
  have hfits : ∀ l ∈ [line], l.Fits := by simpa using hf
  have hwrite := h.write hfits
  have hopened : Opened (d.write [line]).entries ⟨line.opcode, d.entries.length⟩ :=
    ⟨{ line }, by simp [Draft.write], rfl, hw⟩
  have hlocate : locate (d.write [line]).entries ⟨line.opcode, d.entries.length⟩ =
      ⟨line.opcode, l.code.length⟩ := by
    simp only [locate, Draft.write, List.take_left, h.length_code]
  have hnamed := hwrite.named hopened
  simp only [hlocate, Line.encodeAll_cons, Line.encodeAll_nil, List.append_nil] at hnamed
  exact hnamed

/-- The lines of a draft around the line that opened a block. -/
theorem Opened.split (h : Opened d.entries b) :
    ∃ e ∈ d.entries, e.line.opcode = b.opcode ∧ 4 ≤ b.opcode.width ∧
      d.lines = (d.entries.take b.position).map Entry.filled ++
        e.filled :: (d.entries.drop (b.position + 1)).map Entry.filled ∧
      (d.fill b).entries = d.entries.take b.position ++
        { e with length := some (d.behind b) } :: d.entries.drop (b.position + 1) := by
  obtain ⟨e, he, hop, hw⟩ := h
  obtain ⟨hlt, rfl⟩ := List.getElem?_eq_some_iff.mp he
  refine ⟨_, List.getElem_mem hlt, hop, hw, ?_, ?_⟩
  · rw [← List.map_cons, ← List.map_append, ← List.drop_eq_getElem_cons hlt, List.take_append_drop]
    rfl
  · rw [fill, List.modify_eq_take_cons_drop hlt]

/-- Filling in a length in the code is filling it in in the draft; it goes wrong when the length does not fit a
word. -/
theorem Written.patch (h : d.Written l) (hb : Opened d.entries b) :
    l.patch (locate d.entries b) =
      if d.behind b < UInt16.size then
        .ok { l with code := Line.encodeAll (d.fill b).lines }
      else
        .error (.blockTooLong b.opcode (locate d.entries b).position (d.behind b)) := by
  -- The code splits at the opening line, whose length may have been filled in before.
  obtain ⟨e, he, hop, hw, hlines, hfill⟩ := hb.split
  have hfits := h.fits_lines
  rw [hlines] at hfits
  simp only [List.forall_mem_append, List.forall_mem_cons] at hfits
  obtain ⟨hfront, hline, htail⟩ := hfits
  have hlength : (Line.encodeAll ((d.entries.take b.position).map Entry.filled)).length =
      Entry.extent (d.entries.take b.position) := by
    rw [Line.length_encodeAll hfront, Entry.extent_filled]
  have hlength' : (Line.encodeAll ((d.entries.drop (b.position + 1)).map Entry.filled)).length =
      d.behind b := by
    rw [Line.length_encodeAll htail, Entry.extent_filled, behind]
  have hcode : l.code = Line.encodeAll ((d.entries.take b.position).map Entry.filled) ++
      (e.filled.encode ++ Line.encodeAll ((d.entries.drop (b.position + 1)).map Entry.filled)) := by
    rw [h.code, hlines, Line.encodeAll_append, Line.encodeAll_cons]
  have hpatch := Listing.patch_eq hline (by rw [Entry.opcode_filled, hop]; exact hw) hcode
  rw [hlength, hlength', Entry.opcode_filled, hop, Entry.spanning_filled] at hpatch
  have hfilled : (d.fill b).lines = (d.entries.take b.position).map Entry.filled ++
      e.line.spanning (d.behind b) :: (d.entries.drop (b.position + 1)).map Entry.filled := by
    rw [lines, hfill, List.map_append, List.map_cons]
    rfl
  rw [hfilled, Line.encodeAll_append, Line.encodeAll_cons]
  exact hpatch

theorem map_line_fill (d : Draft) (b : Block) :
    (d.fill b).entries.map (·.line) = d.entries.map (·.line) := by
  apply List.ext_getElem?
  intro i
  simp only [fill, List.getElem?_map, List.getElem?_modify]
  cases d.entries[i]? with
  | none => rfl
  | some e => split <;> rfl

theorem locate_fill (d : Draft) (b c : Block) : locate (d.fill b).entries c = locate d.entries c := by
  simp only [locate, Entry.extent, List.map_take, map_line_fill]

theorem Opened.fill {c : Block} (h : Opened d.entries c) (b : Block) :
    Opened (d.fill b).entries c := by
  obtain ⟨e, he, hop, hw⟩ := h
  have hline := congrArg (·[c.position]?) (map_line_fill d b)
  simp only [List.getElem?_map, he, Option.map_some, Option.map_eq_some_iff] at hline
  obtain ⟨e', he', heq⟩ := hline
  exact ⟨e', he', heq ▸ hop, hw⟩

theorem Written.fill (h : d.Written l) (hb : Opened d.entries b) (hlt : d.behind b < UInt16.size) :
    (d.fill b).Written { l with code := Line.encodeAll (d.fill b).lines } where
  code := rfl
  blocks := by
    rw [h.blocks]
    exact List.map_congr_left fun c _ => (locate_fill d b c).symm
  entries := by
    obtain ⟨e, he, hop, hw, _, hfill⟩ := hb.split
    have hall := h.entries
    rw [hfill]
    intro e' he'
    rcases List.mem_append.mp he' with hfront | htail
    · exact hall e' (List.mem_of_mem_take hfront)
    · rcases List.mem_cons.mp htail with rfl | htail
      · exact ⟨(hall e he).fits, fun _ _ => hop ▸ hw, fun n hn => Option.some.inj hn ▸ hlt⟩
      · exact hall e' (List.mem_of_mem_drop htail)
  opened c hc := (h.opened c hc).fill b

end Draft

namespace Step

/-- A step writes no raw bytes, and what it opens has room for a length. -/
def Plain : Step → Prop
  | .raw _ => False
  | .opening line => 4 ≤ line.opcode.width
  | _ => True

instance : DecidablePred Plain
  | .emit _ => isTrue trivial
  | .raw _ => isFalse id
  | .opening line => inferInstanceAs (Decidable (4 ≤ line.opcode.width))
  | .openElse _ => isTrue trivial
  | .close _ _ => isTrue trivial

end Step

namespace Closer

theorem lines_locate (closer : Closer) (entries : List Entry) (b : Block) :
    closer.lines (Draft.locate entries b) = closer.lines b := by
  cases closer <;> rfl

theorem fits_lines (closer : Closer) (b : Block) : ∀ line ∈ closer.lines b, line.Fits := by
  cases closer with
  | endIf =>
      simp only [lines]
      split
      · decide
      · simp
  | next => exact (by decide : ∀ line ∈ [Line.next], line.Fits)
  | endCase => simp [lines]
  | endSwitch => exact (by decide : ∀ line ∈ [Line.eswitch], line.Fits)

end Closer

namespace Listing

variable {l : Listing} {line : Line} {lines : List Line}

theorem emitAll_of_fits (hf : ∀ line ∈ lines, line.Fits) :
    l.emitAll lines = ({ l with code := l.code ++ Line.encodeAll lines }, .ok ()) := by
  induction lines generalizing l with
  | nil => simp [emitAll]
  | cons line lines ih =>
      obtain ⟨hline, hlines⟩ := List.forall_mem_cons.mp hf
      simp only [emitAll, emit, if_pos hline, ih hlines, Line.encodeAll_cons, List.append_assoc]

/-- Writing lines goes wrong at the first one with more operands than its opcode takes. -/
theorem emitAll_snd (l : Listing) (lines : List Line) :
    (l.emitAll lines).2 =
      match lines.find? (¬·.Fits) with
      | none => .ok ()
      | some line => .error (.tooManyOperands line.opcode line.operands.length) := by
  induction lines generalizing l with
  | nil => rfl
  | cons line lines ih =>
      by_cases hf : line.Fits
      · simp only [emitAll, emit, hf, if_true, ih, List.find?_cons, not_true_eq_false, decide_false]
      · simp only [emitAll, emit, hf, if_false, List.find?_cons, not_false_eq_true, decide_true]

end Listing

namespace Draft.Written

variable {d : Draft} {l l' : Listing} {b : Block} {k : Nat}

theorem block (h : d.Written l) (hb : d.blocks[k]? = some b) :
    l.blocks[k]? = some (locate d.entries b) ∧ Opened d.entries b := by
  rw [h.blocks, List.getElem?_map, hb]
  exact ⟨rfl, h.opened b (List.mem_of_getElem? hb)⟩

/-- Closing a block goes wrong exactly when its length, with the lines that close it, does not fit a word. -/
theorem perform_close (h : d.Written l) (hb : d.blocks[k]? = some b) (closer : Closer) :
    l.perform (.close closer k) =
      if (d.write (closer.lines b)).behind b < UInt16.size then
        ({ l with code := Line.encodeAll ((d.write (closer.lines b)).fill b).lines }, .ok none)
      else
        ({ l with code := l.code ++ Line.encodeAll (closer.lines b) },
          .error (.blockTooLong b.opcode (locate d.entries b).position
            ((d.write (closer.lines b)).behind b))) := by
  obtain ⟨hblock, hopened⟩ := h.block hb
  have hfits := closer.fits_lines b
  have hpatch := (h.write hfits).patch (hopened.append _)
  have hlocate : locate (d.write (closer.lines b)).entries b = locate d.entries b :=
    hopened.locate_append _
  rw [hlocate] at hpatch
  simp only [Listing.perform, hblock, Closer.lines_locate, Listing.emitAll_of_fits hfits, hpatch]
  by_cases hlt : (d.write (closer.lines b)).behind b < UInt16.size
  · simp only [hlt, if_true]
  · simp only [hlt, if_false]

/-- Going over to the else-body goes wrong exactly when the if-body, with the line between them, is too long. -/
theorem perform_openElse (h : d.Written l) (hb : d.blocks[k]? = some b) :
    l.perform (.openElse k) =
      if (d.opening .elseCk).behind b < UInt16.size then
        ({ code := Line.encodeAll ((d.opening .elseCk).fill b).lines
           blocks := l.blocks ++ [⟨.elseCk, l.code.length⟩] }, .ok (some l.blocks.length))
      else
        ({ l with code := l.code ++ Line.elseCk.encode },
          .error (.blockTooLong b.opcode (locate d.entries b).position
            ((d.opening .elseCk).behind b))) := by
  obtain ⟨hblock, hopened⟩ := h.block hb
  have hfits : ∀ line ∈ [Line.elseCk], line.Fits := by decide
  have hpatch := (h.write hfits).patch (hopened.append _)
  have hlocate : locate (d.write [.elseCk]).entries b = locate d.entries b :=
    hopened.locate_append _
  rw [hlocate, Line.encodeAll_cons, Line.encodeAll_nil, List.append_nil] at hpatch
  have hbehind : (d.opening .elseCk).behind b = (d.write [.elseCk]).behind b := rfl
  have hfill : ((d.opening .elseCk).fill b).lines = ((d.write [.elseCk]).fill b).lines := rfl
  simp only [Listing.perform, hblock, hpatch, hbehind, hfill]
  by_cases hlt : (d.write [.elseCk]).behind b < UInt16.size
  · simp only [hlt, if_true]
  · simp only [hlt, if_false]

/-- A step that succeeds makes of a draft and its listing the next draft and its listing. -/
theorem perform {step : Step} {name : Option Nat} (h : d.Written l) (hs : step.Plain)
    (hp : l.perform step = (l', .ok name)) : (d.perform step).Written l' := by
  cases step with
  | emit lines =>
      obtain ⟨hf, rfl⟩ := Listing.perform_emit hp
      exact h.write hf
  | raw bytes => exact hs.elim
  | opening line =>
      obtain ⟨hf, rfl⟩ := Listing.perform_opening hp
      exact h.opening hf hs
  | openElse k =>
      cases hb : d.blocks[k]? with
      | none =>
          simp only [Listing.perform, h.blocks, List.getElem?_map, hb, Option.map_none] at hp
          cases hp
      | some b =>
          rw [h.perform_openElse hb] at hp
          split at hp
          · rename_i hlt
            cases hp
            simp only [Draft.perform, hb]
            have hopening := h.opening (by decide : Line.elseCk.Fits) (by decide)
            exact hopening.fill ((h.block hb).2.append _) hlt
          · cases hp
  | close closer k =>
      cases hb : d.blocks[k]? with
      | none =>
          simp only [Listing.perform, h.blocks, List.getElem?_map, hb, Option.map_none] at hp
          cases hp
      | some b =>
          rw [h.perform_close hb] at hp
          split at hp
          · rename_i hlt
            cases hp
            simp only [Draft.perform, hb]
            exact (h.write (closer.fits_lines b)).fill ((h.block hb).2.append _) hlt
          · cases hp

/-- Steps that all succeed write their draft. -/
theorem build {steps : List Step} (h : d.Written l) (hs : ∀ step ∈ steps, step.Plain)
    (hb : l.build steps = .ok l') : (steps.foldl Draft.perform d).Written l' := by
  induction steps generalizing d l with
  | nil =>
      cases hb
      exact h
  | cons step steps ih =>
      obtain ⟨hstep, hsteps⟩ := List.forall_mem_cons.mp hs
      obtain ⟨l₁, name, hp, hb⟩ := Listing.build_cons hb
      exact ih (h.perform hstep hp) hsteps hb

theorem empty : Written {} {} where
  code := rfl
  blocks := rfl
  entries := by simp
  opened := by simp

end Draft.Written

end RoomScript
