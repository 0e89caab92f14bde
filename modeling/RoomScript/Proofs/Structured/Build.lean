import RoomScript.Proofs.Structured.Syntax

/-!
# Writing structured code

When all steps that write a body succeed, they append exactly the lines of the body, and all its lengths
fit a word. A block is written with its length left open; filling it in gives the line that spans the
lines behind it.
-/
namespace RoomScript

namespace Line

theorem fits_spanning {l : Line} (h : l.Fits) (hw : 4 ≤ l.opcode.width) (length : Nat) :
    (l.spanning length).Fits := by
  unfold Fits at h ⊢
  simp only [spanning, List.length_cons, List.length_append, length_wordBytes, List.length_drop]
  omega

/-- Filling in the length of an opening line. -/
theorem set_encode {l : Line} (h : l.Fits) (hw : 4 ≤ l.opcode.width) (length : Nat) :
    (l.encode.set 2 (lowByte (UInt16.ofNat length))).set 3 (highByte (UInt16.ofNat length)) =
      (l.spanning length).encode := by
  obtain ⟨opcode, operands⟩ := l
  obtain ⟨w, hw'⟩ := Nat.exists_eq_add_of_le' hw
  unfold Fits at h
  simp only at hw'
  rw [hw'] at h
  rcases operands with _ | ⟨a, _ | ⟨b, _ | ⟨c, rest⟩⟩⟩
  · simp [encode, spanning, wordBytes, hw', List.replicate_succ]
  · simp [encode, spanning, wordBytes, hw', List.replicate_succ]
  · simp [encode, spanning, wordBytes, hw', List.replicate_succ]
  · simp only [List.length_cons] at h
    simp [encode, spanning, wordBytes, hw']

end Line

namespace Listing

variable {l l' : Listing} {line : Line} {lines : List Line} {name : Option Nat}

theorem emit_eq_ok (h : l.emit line = .ok l') :
    line.Fits ∧ l' = { l with code := l.code ++ line.encode } := by
  unfold emit at h
  split at h
  · rename_i hf
    cases h
    exact ⟨hf, rfl⟩
  · cases h

theorem emitAll_eq_ok (h : l.emitAll lines = (l', .ok ())) :
    (∀ line ∈ lines, line.Fits) ∧ l' = { l with code := l.code ++ Line.encodeAll lines } := by
  induction lines generalizing l with
  | nil =>
      cases h
      simp
  | cons line lines ih =>
      unfold emitAll at h
      split at h
      · rename_i written hw
        obtain ⟨hf, rfl⟩ := emit_eq_ok hw
        obtain ⟨hall, rfl⟩ := ih h
        constructor
        · simpa using ⟨hf, hall⟩
        · simp [List.append_assoc]
      · cases h

theorem perform_emit (h : l.perform (.emit lines) = (l', .ok name)) :
    (∀ line ∈ lines, line.Fits) ∧ l' = { l with code := l.code ++ Line.encodeAll lines } := by
  simp only [perform] at h
  cases hr : (l.emitAll lines).2 with
  | error e =>
      rw [hr] at h
      cases h
  | ok u =>
      apply emitAll_eq_ok
      rw [← (Prod.mk.inj h).1, ← hr]

theorem perform_opening (h : l.perform (.opening line) = (l', .ok name)) :
    line.Fits ∧
      l' = { code := l.code ++ line.encode, blocks := l.blocks ++ [⟨line.opcode, l.code.length⟩] } := by
  simp only [perform, openBlock] at h
  cases hw : l.emit line with
  | error e =>
      rw [hw] at h
      cases h
  | ok written =>
      obtain ⟨hf, rfl⟩ := emit_eq_ok hw
      rw [hw] at h
      cases h
      exact ⟨hf, rfl⟩

theorem set_middle {front bytes tail : List UInt8} {i : Nat} (h : i < bytes.length) (b : UInt8) :
    (front ++ (bytes ++ tail)).set (front.length + i) b = front ++ (bytes.set i b ++ tail) := by
  rw [List.set_append_right _ _ (Nat.le_add_right _ _), Nat.add_sub_cancel_left,
    List.set_append_left _ _ h]

/-- Filling in the length of the block that a line opened, with only the bytes of `tail` behind it. -/
theorem patch_eq {front tail : List UInt8} (hf : line.Fits) (hw : 4 ≤ line.opcode.width)
    (hc : l.code = front ++ (line.encode ++ tail)) :
    l.patch ⟨line.opcode, front.length⟩ =
      if tail.length < UInt16.size then
        .ok { l with code := front ++ ((line.spanning tail.length).encode ++ tail) }
      else
        .error (.blockTooLong line.opcode front.length tail.length) := by
  have hlength : l.code.length - (front.length + line.opcode.width) = tail.length := by
    rw [hc, List.length_append, List.length_append, Line.length_encode hf]
    omega
  have hencode := Line.length_encode hf
  have hset : ((l.code.set (front.length + 2) (lowByte (UInt16.ofNat tail.length))).set
      (front.length + 3) (highByte (UInt16.ofNat tail.length))) =
        front ++ ((line.spanning tail.length).encode ++ tail) := by
    rw [hc, set_middle (by omega), set_middle (by rw [List.length_set]; omega),
      Line.set_encode hf hw]
  simp only [patch, hlength, hset]

theorem patch_eq_ok {front tail : List UInt8} (hf : line.Fits) (hw : 4 ≤ line.opcode.width)
    (hc : l.code = front ++ (line.encode ++ tail))
    (h : l.patch ⟨line.opcode, front.length⟩ = .ok l') :
    tail.length < UInt16.size ∧
      l' = { l with code := front ++ ((line.spanning tail.length).encode ++ tail) } := by
  rw [patch_eq hf hw hc] at h
  split at h
  · rename_i hlt
    cases h
    exact ⟨hlt, rfl⟩
  · cases h

theorem perform_close {front tail : List UInt8} {closer : Closer} {closing : List Line} {n : Nat}
    (hf : line.Fits) (hw : 4 ≤ line.opcode.width) (hc : l.code = front ++ (line.encode ++ tail))
    (hb : l.blocks[n]? = some ⟨line.opcode, front.length⟩)
    (hclosing : closer.lines ⟨line.opcode, front.length⟩ = closing)
    (h : l.perform (.close closer n) = (l', .ok name)) :
    (∀ line ∈ closing, line.Fits) ∧ (tail ++ Line.encodeAll closing).length < UInt16.size ∧
      l' = { l with
        code := front ++ ((line.spanning (tail ++ Line.encodeAll closing).length).encode ++
          (tail ++ Line.encodeAll closing)) } := by
  simp only [perform, hb, hclosing] at h
  split at h
  · cases h
  · rename_i written hwrite
    obtain ⟨hfits, rfl⟩ := emitAll_eq_ok hwrite
    split at h
    · rename_i patched hpatch
      cases h
      have hcode : l.code ++ Line.encodeAll closing =
          front ++ (line.encode ++ (tail ++ Line.encodeAll closing)) := by
        simp only [hc, List.append_assoc]
      exact ⟨hfits, patch_eq_ok (l := { l with code := l.code ++ _ }) hf hw hcode hpatch⟩
    · cases h

theorem perform_openElse {front tail : List UInt8} {n : Nat}
    (hc : l.code = front ++ (Line.ifelCk.encode ++ tail))
    (hb : l.blocks[n]? = some ⟨.ifelCk, front.length⟩)
    (h : l.perform (.openElse n) = (l', .ok name)) :
    (tail ++ Line.elseCk.encode).length < UInt16.size ∧
      l' =
        { code := front ++ ((Line.ifelCk.spanning (tail ++ Line.elseCk.encode).length).encode ++
            (tail ++ Line.elseCk.encode))
          blocks := l.blocks ++ [⟨.elseCk, l.code.length⟩] } := by
  simp only [perform, hb] at h
  split at h
  · rename_i patched hpatch
    cases h
    have hf : Line.ifelCk.Fits := by decide
    have hcode : l.code ++ Line.elseCk.encode =
        front ++ (Line.ifelCk.encode ++ (tail ++ Line.elseCk.encode)) := by
      simp only [hc, List.append_assoc]
    have hp := patch_eq_ok (l := { l with code := l.code ++ _ }) hf (by decide) hcode hpatch
    exact ⟨hp.1, by rw [hp.2]⟩
  · cases h

/-- Lines are appended, and some blocks are opened. -/
structure Writes (l : Listing) (lines : List Line) (opened : Nat) (l' : Listing) : Prop where
  code : l'.code = l.code ++ Line.encodeAll lines
  blocks : ∃ more, l'.blocks = l.blocks ++ more ∧ more.length = opened

theorem Writes.length_blocks {opened : Nat} (h : l.Writes lines opened l') :
    l'.blocks.length = l.blocks.length + opened := by
  obtain ⟨more, hmore, hlength⟩ := h.blocks
  rw [hmore, List.length_append, hlength]

theorem Writes.block {opened n : Nat} {block : Block} (h : l.Writes lines opened l')
    (hb : l.blocks[n]? = some block) : l'.blocks[n]? = some block := by
  obtain ⟨more, hmore, _⟩ := h.blocks
  rw [hmore, List.getElem?_append_left (List.getElem?_eq_some_iff.mp hb).1, hb]

theorem Writes.trans {l₁ l₂ l₃ : Listing} {lines₁ lines₂ : List Line} {j k : Nat}
    (h : l₁.Writes lines₁ j l₂) (h' : l₂.Writes lines₂ k l₃) :
    l₁.Writes (lines₁ ++ lines₂) (j + k) l₃ where
  code := by rw [h'.code, h.code, Line.encodeAll_append, List.append_assoc]
  blocks := by
    obtain ⟨more, hmore, hlength⟩ := h.blocks
    obtain ⟨more', hmore', hlength'⟩ := h'.blocks
    refine ⟨more ++ more', ?_, ?_⟩
    · rw [hmore', hmore, List.append_assoc]
    · rw [List.length_append, hlength, hlength']

theorem build_cons {step : Step} {rest : List Step} (h : l.build (step :: rest) = .ok l') :
    ∃ l₁ name, l.perform step = (l₁, .ok name) ∧ l₁.build rest = .ok l' := by
  unfold build at h
  split at h
  · exact ⟨_, _, ‹_›, h⟩
  · cases h

theorem build_append {steps rest : List Step} (h : l.build (steps ++ rest) = .ok l') :
    ∃ l₁, l.build steps = .ok l₁ ∧ l₁.build rest = .ok l' := by
  induction steps generalizing l with
  | nil => exact ⟨l, rfl, h⟩
  | cons step steps ih =>
      obtain ⟨l₁, name, hp, hb⟩ := build_cons h
      obtain ⟨l₂, hs, hr⟩ := ih hb
      exact ⟨l₂, by simpa only [build, hp] using hs, hr⟩

theorem build_emit {rest : List Step} (h : l.build (.emit lines :: rest) = .ok l') :
    (∀ line ∈ lines, line.Fits) ∧ ∃ l₁, l.Writes lines 0 l₁ ∧ l₁.build rest = .ok l' := by
  obtain ⟨l₁, name, hp, hb⟩ := build_cons h
  obtain ⟨hf, rfl⟩ := perform_emit hp
  exact ⟨hf, _, ⟨rfl, [], by simp⟩, hb⟩

/-- The listing behind a line that opens a block. -/
def opened (l : Listing) (line : Line) : Listing where
  code := l.code ++ line.encode
  blocks := l.blocks ++ [⟨line.opcode, l.code.length⟩]

@[simp] theorem length_blocks_opened : (l.opened line).blocks.length = l.blocks.length + 1 := by
  simp [opened]

theorem build_opening {rest : List Step} (h : l.build (.opening line :: rest) = .ok l') :
    line.Fits ∧ (l.opened line).build rest = .ok l' := by
  obtain ⟨l₁, _, hp, hb⟩ := build_cons h
  obtain ⟨hf, rfl⟩ := perform_opening hp
  exact ⟨hf, hb⟩

section Opened

variable {k n : Nat}

theorem Writes.code_of_opened (h : (l.opened line).Writes lines k l') :
    l'.code = l.code ++ (line.encode ++ Line.encodeAll lines) := by
  rw [h.code, opened, List.append_assoc]

/-- The block keeps its number and its position while lines are written inside it. -/
theorem Writes.block_of_opened (h : (l.opened line).Writes lines k l') (hn : l.blocks.length = n) :
    l'.blocks[n]? = some ⟨line.opcode, l.code.length⟩ :=
  h.block (by simp [opened, ← hn])

/-- Once the opening line has its length, the block counts as written like the lines inside it. -/
theorem Writes.of_opened {lines' : List Line} {code : List UInt8}
    (h : (l.opened line).Writes lines k l') (hc : code = l.code ++ Line.encodeAll lines') :
    l.Writes lines' (1 + k) { l' with code := code } where
  code := hc
  blocks := by
    obtain ⟨more, hmore, hcount⟩ := h.blocks
    refine ⟨⟨line.opcode, l.code.length⟩ :: more, ?_, ?_⟩
    · simp [hmore, opened]
    · rw [List.length_cons, hcount, Nat.add_comm]

variable {inner rest : List Step} {P : Prop}

/-- The body of an open block and the lines that close it. -/
theorem build_body {closer : Closer} {closing : List Line} (hn : l.blocks.length = n)
    (hf : line.Fits) (hw : 4 ≤ line.opcode.width)
    (hclosing : ∀ position, closer.lines ⟨line.opcode, position⟩ = closing)
    (h : (l.opened line).build (inner ++ .close closer n :: rest) = .ok l')
    (hinner : ∀ {l₁ l₂ : Listing}, l₁.blocks.length = n + 1 → l₁.build inner = .ok l₂ →
      P ∧ l₁.Writes lines k l₂) (hP : P → ∀ line ∈ lines, line.Fits) :
    Line.extent lines + Line.extent closing < UInt16.size ∧ P ∧
      ∃ l₃, l.Writes
          (line.spanning (Line.extent lines + Line.extent closing) :: (lines ++ closing)) (1 + k) l₃ ∧
        l₃.build rest = .ok l' := by
  obtain ⟨l₂, hbody, h⟩ := build_append h
  obtain ⟨hinside, hwrites⟩ := hinner (by simp [hn]) hbody
  have hfits := hP hinside
  obtain ⟨l₃, _, hclose, h⟩ := build_cons h
  obtain ⟨hfits', hlength, rfl⟩ := perform_close hf hw hwrites.code_of_opened
    (hwrites.block_of_opened hn) (hclosing _) hclose
  have hextent : (Line.encodeAll lines ++ Line.encodeAll closing).length =
      Line.extent lines + Line.extent closing := by
    rw [List.length_append, Line.length_encodeAll hfits, Line.length_encodeAll hfits']
  rw [hextent] at hlength
  refine ⟨hlength, hinside, _, hwrites.of_opened ?_, h⟩
  simp only [hextent, Line.encodeAll_cons, Line.encodeAll_append]

/-- A block that is opened, written and closed comes out as its opening line with the length filled in,
the lines inside it and the lines that close it. -/
theorem build_block {closer : Closer} {closing : List Line} (hn : l.blocks.length = n)
    (hw : 4 ≤ line.opcode.width)
    (hclosing : ∀ position, closer.lines ⟨line.opcode, position⟩ = closing)
    (h : l.build (.opening line :: (inner ++ .close closer n :: rest)) = .ok l')
    (hinner : ∀ {l₁ l₂ : Listing}, l₁.blocks.length = n + 1 → l₁.build inner = .ok l₂ →
      P ∧ l₁.Writes lines k l₂) (hP : P → ∀ line ∈ lines, line.Fits) :
    Line.extent lines + Line.extent closing < UInt16.size ∧ P ∧
      ∃ l₃, l.Writes
          (line.spanning (Line.extent lines + Line.extent closing) :: (lines ++ closing)) (1 + k) l₃ ∧
        l₃.build rest = .ok l' := by
  obtain ⟨hf, h⟩ := build_opening h
  exact build_body hn hf hw hclosing h hinner hP

/-- An if-body up to the `ELSE_CK` behind it, which ends the if-body and opens the else-body. -/
theorem build_openElse (hn : l.blocks.length = n)
    (h : (l.opened .ifelCk).build (inner ++ .openElse n :: rest) = .ok l')
    (hinner : ∀ {l₁ l₂ : Listing}, l₁.blocks.length = n + 1 → l₁.build inner = .ok l₂ →
      P ∧ l₁.Writes lines k l₂) (hP : P → ∀ line ∈ lines, line.Fits) :
    Line.extent lines + 4 < UInt16.size ∧ P ∧
      ∃ l₃, l.Writes (Line.ifelCk.spanning (Line.extent lines + 4) :: lines) (1 + k) l₃ ∧
        (l₃.opened .elseCk).build rest = .ok l' := by
  obtain ⟨l₂, hbody, h⟩ := build_append h
  obtain ⟨hinside, hwrites⟩ := hinner (by simp [hn]) hbody
  obtain ⟨l₃, _, helse, h⟩ := build_cons h
  obtain ⟨hlength, rfl⟩ :=
    perform_openElse hwrites.code_of_opened (hwrites.block_of_opened hn) helse
  have hextent : (Line.encodeAll lines ++ Line.elseCk.encode).length = Line.extent lines + 4 := by
    rw [List.length_append, Line.length_encodeAll (hP hinside)]
    rfl
  rw [hextent] at hlength h
  refine ⟨hlength, hinside, _, hwrites.of_opened rfl, ?_⟩
  -- The length that is filled in does not move the `ELSE_CK`.
  have hf : Line.ifelCk.Fits := by decide
  have hspan : ((Line.ifelCk.spanning (Line.extent lines + 4)).encode).length =
      Line.ifelCk.encode.length := by
    rw [Line.length_encode (Line.fits_spanning hf (by decide) _), Line.length_encode hf]
    rfl
  have hposition : l₂.code.length =
      (l.code ++ Line.encodeAll (Line.ifelCk.spanning (Line.extent lines + 4) :: lines)).length := by
    simp only [hwrites.code_of_opened, Line.encodeAll_cons, List.length_append, hspan]
  simp only [hposition, Line.encodeAll_cons] at h
  simp only [opened, Line.encodeAll_cons, List.append_assoc]
  exact h

/-- An if-body and its else-body. -/
theorem build_ifElse {other : List Step} {lines' : List Line} {j : Nat} {Q : Prop}
    (hn : l.blocks.length = n)
    (h : l.build (.opening .ifelCk :: (inner ++
      .openElse n :: (other ++ .close .endIf (n + 1 + j) :: rest))) = .ok l')
    (hinner : ∀ {l₁ l₂ : Listing}, l₁.blocks.length = n + 1 → l₁.build inner = .ok l₂ →
      P ∧ l₁.Writes lines j l₂) (hP : P → ∀ line ∈ lines, line.Fits)
    (hother : ∀ {l₁ l₂ : Listing}, l₁.blocks.length = n + 1 + j + 1 → l₁.build other = .ok l₂ →
      Q ∧ l₁.Writes lines' k l₂) (hQ : Q → ∀ line ∈ lines', line.Fits) :
    Line.extent lines + 4 < UInt16.size ∧ Line.extent lines' < UInt16.size ∧ P ∧ Q ∧
      ∃ l₃, l.Writes (Line.ifelCk.spanning (Line.extent lines + 4) :: (lines ++
          Line.elseCk.spanning (Line.extent lines') :: lines')) (1 + j + 1 + k) l₃ ∧
        l₃.build rest = .ok l' := by
  obtain ⟨_, h⟩ := build_opening h
  obtain ⟨hlength, hinside, l₁, hwrites, h⟩ := build_openElse hn h hinner hP
  have hcount : l₁.blocks.length = n + 1 + j := by
    rw [hwrites.length_blocks, hn, Nat.add_assoc]
  have hclosing : ∀ position, Closer.endIf.lines ⟨Line.elseCk.opcode, position⟩ = [] := fun _ => rfl
  obtain ⟨hlength', hinside', l₂, hwrites', h⟩ :=
    build_body hcount (by decide) (by decide) hclosing h hother hQ
  have hall := hwrites.trans hwrites'
  rw [← Nat.add_assoc, List.append_nil] at hall
  exact ⟨hlength, hlength', hinside, hinside', l₂, hall, h⟩

end Opened

end Listing

namespace Line

theorem fits_forLoop (count : UInt16) : (forLoop count).Fits := by
  show 5 < Opcode.forLoop.width
  decide

theorem fits_switch (var : UInt8) : (switch var).Fits := by
  show 1 < Opcode.switch.width
  decide

theorem fits_case (value : Int16) : (case value).Fits := by
  show 5 < Opcode.case.width
  decide

end Line

variable {α : Type} [Leaf α]

mutual

/-- All lines of a body that fits can be written. -/
theorem Body.fits_lines : ∀ {body : Body α}, body.Fits → ∀ line ∈ body.lines, line.Fits
  | .done, _ => by simp [Body.lines]
  | .leaf a rest, h => by
      simp only [Body.lines, List.forall_mem_append]
      exact ⟨h.1, rest.fits_lines h.2⟩
  | .ifThen body rest, h => by
      simp only [Body.lines, List.forall_mem_cons, List.forall_mem_append]
      exact ⟨Line.fits_spanning (by decide) (by decide) _, body.fits_lines h.2.1, by decide,
        rest.fits_lines h.2.2⟩
  | .ifElse body other rest, h => by
      obtain ⟨_, _, hbody, hother, hrest⟩ := h
      simp only [Body.lines, List.forall_mem_cons, List.forall_mem_append]
      exact ⟨Line.fits_spanning (by decide) (by decide) _, body.fits_lines hbody,
        Line.fits_spanning (by decide) (by decide) _, other.fits_lines hother,
        rest.fits_lines hrest⟩
  | .loop count body rest, h => by
      simp only [Body.lines, List.forall_mem_cons, List.forall_mem_append]
      exact ⟨Line.fits_spanning (Line.fits_forLoop count) (by decide : 4 ≤ Opcode.forLoop.width) _,
        body.fits_lines h.2.1, by decide, rest.fits_lines h.2.2⟩
  | .switch var cases rest, h => by
      simp only [Body.lines, List.forall_mem_cons, List.forall_mem_append]
      exact ⟨Line.fits_spanning (Line.fits_switch var) (by decide : 4 ≤ Opcode.switch.width) _,
        cases.fits_lines h.2.1, by decide, rest.fits_lines h.2.2⟩
  | .breakOut rest, h => by
      simp only [Body.lines, List.forall_mem_cons]
      exact ⟨by decide, rest.fits_lines h⟩

theorem Cases.fits_lines : ∀ {cases : Cases α}, cases.Fits → ∀ line ∈ cases.lines, line.Fits
  | .none, _ => by simp [Cases.lines]
  | .default body, h => by
      simp only [Cases.lines, List.forall_mem_cons]
      exact ⟨by decide, body.fits_lines h⟩
  | .case value body rest, h => by
      simp only [Cases.lines, List.forall_mem_cons, List.forall_mem_append]
      exact ⟨Line.fits_spanning (Line.fits_case value) (by decide : 4 ≤ Opcode.case.width) _, body.fits_lines h.2.1,
        rest.fits_lines h.2.2⟩

end

mutual

/-- Steps that write a body and succeed append its lines. -/
theorem Body.build_eq_ok : ∀ {body : Body α} {n : Nat} {l l' : Listing}, l.blocks.length = n →
    l.build (body.steps n) = .ok l' → body.Fits ∧ l.Writes body.lines body.opened l'
  | .done, n, l, l', hn, h => by
      cases h
      exact ⟨trivial, by simp [Body.lines], [], by simp [Body.opened]⟩
  | .leaf a rest, n, l, l', hn, h => by
      obtain ⟨hf, l₁, hw, h⟩ := Listing.build_emit h
      obtain ⟨hrest, hw'⟩ := rest.build_eq_ok (hw.length_blocks.trans hn) h
      have hall := hw.trans hw'
      rw [Nat.zero_add] at hall
      exact ⟨⟨hf, hrest⟩, hall⟩
  | .ifThen body rest, n, l, l', hn, h => by
      obtain ⟨hlength, hbody, l₃, hw, h⟩ := Listing.build_block hn (by decide) (fun _ => rfl) h
        body.build_eq_ok body.fits_lines
      obtain ⟨hrest, hw'⟩ := rest.build_eq_ok (hw.length_blocks.trans (by omega)) h
      have hall := hw.trans hw'
      simp only [List.cons_append, List.append_assoc] at hall
      exact ⟨⟨hlength, hbody, hrest⟩, hall⟩
  | .ifElse body other rest, n, l, l', hn, h => by
      obtain ⟨hlength, hlength', hbody, hother, l₃, hw, h⟩ := Listing.build_ifElse hn h
        body.build_eq_ok body.fits_lines other.build_eq_ok other.fits_lines
      obtain ⟨hrest, hw'⟩ := rest.build_eq_ok (hw.length_blocks.trans (by omega)) h
      have hall := hw.trans hw'
      simp only [List.cons_append, List.append_assoc] at hall
      exact ⟨⟨hlength, hlength', hbody, hother, hrest⟩, hall⟩
  | .loop count body rest, n, l, l', hn, h => by
      obtain ⟨hlength, hbody, l₃, hw, h⟩ := Listing.build_block hn
        (by decide : 4 ≤ Opcode.forLoop.width) (fun _ => rfl) h body.build_eq_ok body.fits_lines
      obtain ⟨hrest, hw'⟩ := rest.build_eq_ok (hw.length_blocks.trans (by omega)) h
      have hall := hw.trans hw'
      simp only [List.cons_append, List.append_assoc] at hall
      exact ⟨⟨hlength, hbody, hrest⟩, hall⟩
  | .switch var cases rest, n, l, l', hn, h => by
      obtain ⟨hlength, hcases, l₃, hw, h⟩ := Listing.build_block hn
        (by decide : 4 ≤ Opcode.switch.width) (fun _ => rfl) h cases.build_eq_ok cases.fits_lines
      obtain ⟨hrest, hw'⟩ := rest.build_eq_ok (hw.length_blocks.trans (by omega)) h
      have hall := hw.trans hw'
      simp only [List.cons_append, List.append_assoc] at hall
      exact ⟨⟨hlength, hcases, hrest⟩, hall⟩
  | .breakOut rest, n, l, l', hn, h => by
      obtain ⟨_, l₁, hw, h⟩ := Listing.build_emit h
      obtain ⟨hrest, hw'⟩ := rest.build_eq_ok (hw.length_blocks.trans hn) h
      have hall := hw.trans hw'
      rw [Nat.zero_add] at hall
      exact ⟨hrest, hall⟩

theorem Cases.build_eq_ok : ∀ {cases : Cases α} {n : Nat} {l l' : Listing}, l.blocks.length = n →
    l.build (cases.steps n) = .ok l' → cases.Fits ∧ l.Writes cases.lines cases.opened l'
  | .none, n, l, l', hn, h => by
      cases h
      exact ⟨trivial, by simp [Cases.lines], [], by simp [Cases.opened]⟩
  | .default body, n, l, l', hn, h => by
      obtain ⟨_, l₁, hw, h⟩ := Listing.build_emit h
      obtain ⟨hbody, hw'⟩ := body.build_eq_ok (hw.length_blocks.trans hn) h
      have hall := hw.trans hw'
      rw [Nat.zero_add] at hall
      exact ⟨hbody, hall⟩
  | .case value body rest, n, l, l', hn, h => by
      obtain ⟨hlength, hbody, l₃, hw, h⟩ := Listing.build_block hn
        (by decide : 4 ≤ Opcode.case.width) (fun _ => rfl) h body.build_eq_ok body.fits_lines
      obtain ⟨hrest, hw'⟩ := rest.build_eq_ok (hw.length_blocks.trans (by omega)) h
      have hall := hw.trans hw'
      simp only [List.cons_append, List.append_nil] at hall
      exact ⟨⟨hlength, hbody, hrest⟩, hall⟩

end

/-- A function that is written without an error is its body and the `EVT_END` behind it. -/
theorem Body.function_eq_ok {body : Body α} {code : List UInt8} (h : body.function = .ok code) :
    body.Fits ∧ code = Line.encodeAll (body.lines ++ [.evtEnd]) := by
  unfold function at h
  cases hb : Listing.build {} (body.steps 0 ++ [.emit [.evtEnd]]) with
  | error e =>
      rw [hb] at h
      cases h
  | ok l =>
      rw [hb] at h
      cases h
      obtain ⟨l₁, hbody, hend⟩ := Listing.build_append hb
      obtain ⟨hfits, hw⟩ := body.build_eq_ok rfl hbody
      obtain ⟨_, l₂, hw', hdone⟩ := Listing.build_emit hend
      cases hdone
      constructor
      · exact hfits
      · rw [hw'.code, hw.code, Line.encodeAll_append]
        rfl

/-- Steps that all succeed are those that assembly performs. -/
theorem Listing.foldl_of_build {steps : List Step} {l l' : Listing} (h : l.build steps = .ok l') :
    steps.foldl (fun (l : Listing) step => (l.perform step).1) l = l' := by
  induction steps generalizing l with
  | nil =>
      cases h
      rfl
  | cons step steps ih =>
      obtain ⟨l₁, name, hp, hb⟩ := build_cons h
      simp only [List.foldl_cons, hp]
      exact ih hb

end RoomScript
