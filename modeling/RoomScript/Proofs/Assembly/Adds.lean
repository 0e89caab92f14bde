import RoomScript.Proofs.Assembly.Draft

/-!
# Steps that add bytes

Some steps of assembly add the same bytes whatever was written before them, and open so many blocks of their
own: raw bytes, lines, blocks whose bytes fit a word, and any of these one behind the other or one within the
other. What has been written before stays as it is.
-/
namespace RoomScript

/-- From any listing with `n` blocks the steps succeed. They append some bytes and open some blocks. -/
def Listing.Adds (n : Nat) (steps : List Step) (bytes : List UInt8) (opened : Nat) : Prop :=
  ∀ l : Listing, l.blocks.length = n → ∃ more, more.length = opened ∧
    l.build steps = .ok { code := l.code ++ bytes, blocks := l.blocks ++ more }

namespace Listing

variable {l l' : Listing} {line : Line} {closer : Closer} {n j k : Nat} {steps rest : List Step}
  {bytes bytes' : List UInt8}

theorem build_append_of_ok (h : l.build steps = .ok l') : l.build (steps ++ rest) = l'.build rest := by
  induction steps generalizing l with
  | nil =>
      cases h
      rfl
  | cons step steps ih =>
      obtain ⟨l₁, name, hp, hb⟩ := build_cons h
      rw [List.cons_append, build, hp]
      exact ih hb

/-- Raw bytes are appended as they are. -/
theorem adds_raw (n : Nat) (bytes : List UInt8) : Adds n [.raw bytes] bytes 0 :=
  fun l _ => ⟨[], rfl, by simp [build, perform]⟩

theorem adds_emit (n : Nat) (lines : List Line) (hf : ∀ line ∈ lines, line.Fits) :
    Adds n [.emit lines] (Line.encodeAll lines) 0 :=
  fun l _ => ⟨[], rfl, by simp [build, perform, emitAll_of_fits hf, Except.map]⟩

theorem Adds.nil (n : Nat) : Adds n [] [] 0 := fun l _ => ⟨[], rfl, by simp [build]⟩

theorem Adds.append (h : Adds n steps bytes j) (h' : Adds (n + j) rest bytes' k) :
    Adds n (steps ++ rest) (bytes ++ bytes') (j + k) := by
  intro l hl
  obtain ⟨more, hmore, hb⟩ := h l hl
  obtain ⟨more', hmore', hb'⟩ := h' { code := l.code ++ bytes, blocks := l.blocks ++ more }
    (by rw [List.length_append, hl, hmore])
  refine ⟨more ++ more', by rw [List.length_append, hmore, hmore'], ?_⟩
  rw [build_append_of_ok hb, hb', List.append_assoc, List.append_assoc]

/-- Closing a block whose bytes fit fills in its length. -/
theorem perform_close_of_fits {front tail : List UInt8} {closing : List Line} (hf : line.Fits)
    (hw : 4 ≤ line.opcode.width) (hc : l.code = front ++ (line.encode ++ tail))
    (hb : l.blocks[n]? = some ⟨line.opcode, front.length⟩)
    (hclosing : closer.lines ⟨line.opcode, front.length⟩ = closing)
    (hlength : (tail ++ Line.encodeAll closing).length < UInt16.size) :
    l.perform (.close closer n) =
      ({ l with
        code := front ++ ((line.spanning (tail ++ Line.encodeAll closing).length).encode ++
          (tail ++ Line.encodeAll closing)) }, .ok none) := by
  have hfits := closer.fits_lines ⟨line.opcode, front.length⟩
  rw [hclosing] at hfits
  have hcode : l.code ++ Line.encodeAll closing =
      front ++ (line.encode ++ (tail ++ Line.encodeAll closing)) := by
    simp only [hc, List.append_assoc]
  have hpatch := patch_eq (l := { l with code := l.code ++ Line.encodeAll closing }) hf hw hcode
  rw [if_pos hlength] at hpatch
  simp only [perform, hb, hclosing, emitAll_of_fits hfits, hpatch]

/-- A block whose bytes fit comes out as its opening line with the length filled in, what was written inside it
and the lines that close it. -/
theorem Adds.block (closer : Closer) (closing : List Line) (hf : line.Fits) (hw : 4 ≤ line.opcode.width)
    (hclosing : ∀ position, closer.lines ⟨line.opcode, position⟩ = closing)
    (hinner : Adds (n + 1) steps bytes k)
    (hlength : (bytes ++ Line.encodeAll closing).length < UInt16.size) :
    Adds n (.opening line :: (steps ++ [.close closer n]))
      ((line.spanning (bytes ++ Line.encodeAll closing).length).encode ++
        (bytes ++ Line.encodeAll closing)) (1 + k) := by
  intro l hl
  obtain ⟨more, hmore, hb⟩ := hinner
    { code := l.code ++ line.encode, blocks := l.blocks ++ [⟨line.opcode, l.code.length⟩] }
    (by simp [hl])
  have hopen : l.perform (.opening line) =
      ({ code := l.code ++ line.encode, blocks := l.blocks ++ [⟨line.opcode, l.code.length⟩] },
        .ok (some l.blocks.length)) := by
    simp only [perform, openBlock, emit, if_pos hf]
    rfl
  have hblock : (l.blocks ++ [⟨line.opcode, l.code.length⟩] ++ more)[n]? =
      some ⟨line.opcode, l.code.length⟩ := by
    simp [← hl]
  have hcode : l.code ++ line.encode ++ bytes = l.code ++ (line.encode ++ bytes) :=
    List.append_assoc _ _ _
  have hclose := perform_close_of_fits
    (l := ⟨l.code ++ line.encode ++ bytes, l.blocks ++ [⟨line.opcode, l.code.length⟩] ++ more⟩)
    hf hw hcode hblock (hclosing _) hlength
  refine ⟨⟨line.opcode, l.code.length⟩ :: more, by rw [List.length_cons, hmore, Nat.add_comm], ?_⟩
  rw [build, hopen]
  simp only [build_append_of_ok hb]
  rw [build, hclose]
  simp only [build, List.append_assoc, List.cons_append, List.nil_append]

end Listing

end RoomScript
