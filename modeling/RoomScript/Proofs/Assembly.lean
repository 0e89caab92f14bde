import RoomScript.Program.Walk
import RoomScript.Proofs.Assembly.Draft
import RoomScript.Proofs.Structured.Code

/-!
# What was written is what is read

The code of a function is written in one direction, and the lengths of its blocks are filled in later, in any
order and any number of times. A walk over the code still meets exactly the instructions that were written, in
the order in which they were written: filling in a length changes two operand bytes of the opening instruction
and nothing else. The same holds across the functions of a program, which lie one behind the other.
-/
namespace RoomScript

namespace Entry

/-- The bytes of some entries, each with the position at which it starts. -/
def placed : Nat → List Entry → List (Nat × List UInt8)
  | _, [] => []
  | position, e :: rest => (position, e.bytes) :: placed (position + e.line.opcode.width) rest

/-- Entries and their lines take the same bytes at the same positions. -/
theorem map_placed {position : Nat} {entries : List Entry} (hw : ∀ e ∈ entries, e.WellFormed) :
    (Line.placed position (entries.map filled)).map (fun visit => (visit.1, visit.2.bytes)) =
      placed position entries := by
  induction entries generalizing position with
  | nil => rfl
  | cons e entries ih =>
      obtain ⟨he, hentries⟩ := List.forall_mem_cons.mp hw
      have hbytes : e.filled.instruction.bytes = e.bytes := by
        rw [Line.bytes_instruction he.fits_filled, he.encode_filled]
      rw [List.map_cons, Line.placed, List.map_cons, hbytes, e.opcode_filled, ih hentries, placed]

end Entry

namespace Program

variable {p : Program} {position : Nat} {entries : List Entry}

/-- A walk from a position meets the instructions of some entries one behind the other, and then the end of the
code. -/
def Visits (p : Program) (position : Nat) (entries : List Entry) : Prop :=
  (p.walk position).1.map (fun visit => (visit.1, visit.2.bytes)) = Entry.placed position entries ∧
    (p.walk position).2 = .outOfBounds p.code.size

theorem visits_of_lists (hw : ∀ e ∈ entries, e.WellFormed)
    (h : p.Lists position (entries.map Entry.filled))
    (hend : position + Entry.extent entries = p.code.size) : p.Visits position entries := by
  rw [← Entry.extent_filled] at hend
  rw [Visits, walk_of_lists h hend, Entry.map_placed hw]
  exact ⟨rfl, rfl⟩

end Program

namespace Draft

/-- Code that was written, and what comes of the next step, as a draft tells them. -/
structure Describes (d : Draft) (l : Listing) : Prop where
  entries : ∀ e ∈ d.entries, e.WellFormed
  /-- A walk over the code meets the entries of the draft. -/
  visits : ({ code := l.code.toArray } : Program).Visits 0 d.entries
  /-- Writing lines goes wrong at the first one with more operands than its opcode takes. -/
  emit : ∀ lines, (l.perform (.emit lines)).2 =
    match lines.find? (¬·.Fits) with
    | none => .ok none
    | some line => .error (.tooManyOperands line.opcode line.operands.length)
  opening : ∀ line, (l.perform (.opening line)).2 =
    if line.Fits then .ok (some d.blocks.length)
    else .error (.tooManyOperands line.opcode line.operands.length)
  /-- A block can be closed exactly when its length, the closing line included, fits a word. -/
  close : ∀ closer k b, d.blocks[k]? = some b →
    (l.perform (.close closer k)).2 =
      if (d.write (closer.lines b)).behind b < UInt16.size then .ok none
      else .error (.blockTooLong b.opcode (locate d.entries b).position
        ((d.write (closer.lines b)).behind b))
  openElse : ∀ k b, d.blocks[k]? = some b →
    (l.perform (.openElse k)).2 =
      if (d.opening .elseCk).behind b < UInt16.size then .ok (some d.blocks.length)
      else .error (.blockTooLong b.opcode (locate d.entries b).position
        ((d.opening .elseCk).behind b))

variable {d : Draft} {l : Listing}

theorem Written.visits (h : d.Written l) :
    ({ code := l.code.toArray } : Program).Visits 0 d.entries := by
  apply Program.visits_of_lists h.entries
  · apply Program.lists_of_has h.fits_lines
    intro i _
    simp only [Nat.zero_add, List.getElem?_toArray, h.code, lines]
  · simp only [Nat.zero_add, List.size_toArray, h.length_code]

theorem Written.describes (h : d.Written l) : d.Describes l where
  entries := h.entries
  visits := h.visits
  emit lines := by
    have hsnd := l.emitAll_snd lines
    simp only [Listing.perform, hsnd]
    cases lines.find? (¬·.Fits) <;> rfl
  opening line := by
    simp only [Listing.perform, Listing.openBlock, Listing.emit]
    by_cases hf : line.Fits
    · simp only [hf, if_true, ← h.length_blocks]
      rfl
    · simp only [hf, if_false]
      rfl
  close closer k b hb := by
    rw [h.perform_close hb]
    split <;> rfl
  openElse k b hb := by
    rw [h.perform_openElse hb, h.length_blocks]
    split <;> rfl

end Draft

namespace Listing

variable {steps : List Step} {functions : List (List Step)}

/-- Steps without raw bytes that all succeed. -/
def Sound (steps : List Step) : Prop :=
  (∀ step ∈ steps, step.Plain) ∧ ∃ l, build {} steps = .ok l

theorem Sound.written (h : Sound steps) :
    ∃ l, build {} steps = .ok l ∧ assemble steps = l.code ∧ (Draft.ofSteps steps).Written l := by
  obtain ⟨hs, l, hb⟩ := h
  exact ⟨l, hb, congrArg code (foldl_of_build hb), Draft.Written.empty.build hs hb⟩

/-- How many bytes functions take. -/
def extent : List (List Step) → Nat
  | [] => 0
  | steps :: functions => (assemble steps).length + extent functions

theorem length_flatten_assemble (functions : List (List Step)) :
    (functions.map assemble).flatten.length = extent functions := by
  induction functions with
  | nil => rfl
  | cons steps functions ih =>
      rw [List.map_cons, List.flatten_cons, List.length_append, ih, extent]

/-- The code of functions one behind the other is the bytes of their drafts. -/
theorem flatten_assemble (h : ∀ steps ∈ functions, Sound steps) :
    (functions.map assemble).flatten =
      Line.encodeAll ((functions.flatMap fun steps => (Draft.ofSteps steps).entries).map
        Entry.filled) := by
  induction functions with
  | nil => rfl
  | cons steps functions ih =>
      obtain ⟨hsteps, hfunctions⟩ := List.forall_mem_cons.mp h
      obtain ⟨l, _, hcode, hw⟩ := hsteps.written
      rw [List.map_cons, List.flatten_cons, ih hfunctions, hcode, hw.code, List.flatMap_cons,
        List.map_append, Line.encodeAll_append, Draft.lines]

theorem wellFormed_entries (h : ∀ steps ∈ functions, Sound steps) :
    ∀ e ∈ functions.flatMap fun steps => (Draft.ofSteps steps).entries, e.WellFormed := by
  intro e he
  obtain ⟨steps, hsteps, he⟩ := List.mem_flatMap.mp he
  obtain ⟨l, _, _, hw⟩ := (h steps hsteps).written
  exact hw.entries e he

/-- Assembling functions and walking over the code gives their instructions back. -/
theorem assembled_visits (h : ∀ steps ∈ functions, Sound steps) :
    (∀ steps ∈ functions, ∃ l, build {} steps = .ok l ∧ assemble steps = l.code ∧
        (Draft.ofSteps steps).Describes l) ∧
      ∀ i < functions.length,
        let p := Program.ofFunctions (functions.map assemble)
        p.entries[i]? = some (extent (functions.take i)) ∧
          p.Visits (extent (functions.take i))
            ((functions.drop i).flatMap fun steps => (Draft.ofSteps steps).entries) := by
  constructor
  · intro steps hsteps
    obtain ⟨l, hb, hcode, hw⟩ := (h steps hsteps).written
    exact ⟨l, hb, hcode, hw.describes⟩
  · intro i hi p
    have hstart : ((functions.map assemble).take i).flatten.length =
        extent (functions.take i) := by
      rw [← List.map_take, length_flatten_assemble]
    have hrest : ∀ steps ∈ functions.drop i, Sound steps :=
      fun steps hsteps => h steps (List.mem_of_mem_drop hsteps)
    have hcode := flatten_assemble hrest
    have hwf := wellFormed_entries hrest
    have hfits : ∀ line ∈ (((functions.drop i).flatMap fun steps =>
        (Draft.ofSteps steps).entries).map Entry.filled), line.Fits := by
      intro line hline
      obtain ⟨e, he, rfl⟩ := List.mem_map.mp hline
      exact (hwf e he).fits_filled
    have hhas := Program.has_drop (functions.map assemble) i
    rw [hstart, ← List.map_drop, hcode] at hhas
    constructor
    · have hentry := Program.getElem?_startsFrom 0 (functions.map assemble) i (by simpa using hi)
      rwa [hstart, Nat.zero_add] at hentry
    · apply Program.visits_of_lists hwf (Program.lists_of_has hfits hhas)
      rw [← Entry.extent_filled, ← Line.length_encodeAll hfits, ← hcode, ← hstart, List.map_drop,
        ← List.length_append, ← List.flatten_append, List.take_append_drop]
      rfl

/-- An if-body that its else-body and a loop overlap, and that is closed a second time. -/
def tangled : List Step :=
  [.opening .ifelCk, .opening (.forLoop 3), .emit [.setBit 0 1 .set], .openElse 0, .close .next 1,
    .emit (Line.sleep 5), .close .endIf 2, .close .endIf 0, .emit [.evtEnd]]

/-- A switch with one case and a default. -/
def branching : List Step :=
  [.opening (.switch 2), .opening (.case (-1)), .emit [.breakOut], .close .endCase 1,
    .emit [.default], .close .endSwitch 0, .emit [.evtEnd]]

theorem assembled_visits_tangled :
    (Draft.ofSteps tangled).entries.map (·.length) =
        [some 25, some 10, none, some 9, none, none, none, none, none] ∧
      (∀ steps ∈ [tangled, branching], Sound steps) ∧
      (∃ l, build {} tangled = .ok l ∧ assemble tangled = l.code ∧
        (Draft.ofSteps tangled).Describes l) ∧
      ∀ i < 2,
        let p := Program.ofFunctions [assemble tangled, assemble branching]
        p.entries[i]? = some (extent ([tangled, branching].take i)) ∧
          p.Visits (extent ([tangled, branching].take i))
            (([tangled, branching].drop i).flatMap fun steps => (Draft.ofSteps steps).entries) := by
  have htangled : Sound tangled := ⟨by decide, _, rfl⟩
  have hbranching : Sound branching := ⟨by decide, _, rfl⟩
  have h : ∀ steps ∈ [tangled, branching], Sound steps := by simp [htangled, hbranching]
  have hvisits := assembled_visits h
  exact ⟨by decide, h, hvisits.1 tangled List.mem_cons_self, hvisits.2⟩

end Listing

end RoomScript
