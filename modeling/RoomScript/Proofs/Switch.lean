import RoomScript.Proofs.Assembly.Adds
import RoomScript.Proofs.Dispatch.Open
import RoomScript.Proofs.Dispatch.Scan
import RoomScript.Proofs.Structured.Code

/-!
# Where a switch lands

A switch that is written case by case lands behind the header of the first case for its value, or behind its
default, or behind its end. The bodies between the headers may be any bytes: what they look like makes no
difference, since the walk hops over them by the lengths that were filled in when the cases were closed. On code
that nobody has written as a switch the walk may come to anything, but it comes to an end, and it never goes
back.
-/
namespace RoomScript

/-- A case as it is written, with the bytes of its body. -/
structure CaseBlock where
  value : Int16
  body : List UInt8
  deriving DecidableEq

/-- A switch as it is written. -/
structure SwitchBlock where
  var : UInt8
  cases : List CaseBlock := []
  /-- The bytes of the default's body. -/
  default? : Option (List UInt8) := none
  deriving DecidableEq

namespace CaseBlock

variable {p : Program} {position : Nat} {value : Int16} {c : CaseBlock} {cases : List CaseBlock}

/-- The bytes of a case: the header, which holds how long the body is, and the body. -/
def bytes (c : CaseBlock) : List UInt8 :=
  ((Line.case c.value).spanning c.body.length).encode ++ c.body

/-- The bytes of cases, one behind the other. -/
def allBytes (cases : List CaseBlock) : List UInt8 := cases.flatMap bytes

@[simp] theorem allBytes_nil : allBytes [] = [] := rfl

@[simp] theorem allBytes_cons : allBytes (c :: cases) = c.bytes ++ allBytes cases := List.flatMap_cons

theorem allBytes_append (cases rest : List CaseBlock) :
    allBytes (cases ++ rest) = allBytes cases ++ allBytes rest := List.flatMap_append

theorem fits_header (value : Int16) (length : Nat) : ((Line.case value).spanning length).Fits :=
  Line.fits_spanning (Line.fits_case value) (show 4 ≤ Opcode.case.width by decide) length

theorem length_header (value : Int16) (length : Nat) :
    ((Line.case value).spanning length).encode.length = 6 :=
  Line.length_encode (fits_header value length)

theorem length_bytes (c : CaseBlock) : c.bytes.length = 6 + c.body.length := by
  rw [bytes, List.length_append, length_header]

/-- A body is shorter than all the cases together. -/
theorem length_body_lt (hc : c ∈ cases) : c.body.length < (allBytes cases).length := by
  obtain ⟨front, rest, rfl⟩ := List.append_of_mem hc
  rw [allBytes_append, allBytes_cons, List.length_append, List.length_append, length_bytes]
  omega

/-- Where a case stands, its header can be read, and its body stands behind the header. -/
theorem has_bytes (h : p.Has position c.bytes) :
    p.instructionAt position = .ok ((Line.case c.value).spanning c.body.length).instruction ∧
      p.Has (position + 6) c.body := by
  have hfits := fits_header c.value c.body.length
  rw [bytes, ← Line.bytes_instruction hfits, Program.has_append] at h
  obtain ⟨hheader, hbody⟩ := h
  rw [Line.bytes_instruction hfits, length_header] at hbody
  exact ⟨Program.instructionAt_of_has hheader, hbody⟩

/-- The walk hops over cases for other values, whatever the bytes of their bodies are. -/
theorem find_of_others (h : p.Has position (allBytes cases))
    (hothers : ∀ c ∈ cases, c.value ≠ value) (hshort : ∀ c ∈ cases, c.body.length < UInt16.size) :
    Landing.find p.code value position =
      Landing.find p.code value (position + (allBytes cases).length) := by
  induction cases generalizing position with
  | nil => rfl
  | cons c cases ih =>
      obtain ⟨hv, hothers⟩ := List.forall_mem_cons.mp hothers
      obtain ⟨hlength, hshort⟩ := List.forall_mem_cons.mp hshort
      rw [allBytes_cons, Program.has_append] at h
      have hhop : Landing.find p.code value position =
          Landing.find p.code value (position + c.bytes.length) := by
        rw [Landing.find_at_case (has_bytes h.1).1 hlength, if_neg hv, length_bytes, Nat.add_assoc]
      rw [hhop, ih h.2 hothers hshort, allBytes_cons, List.length_append, Nat.add_assoc]

end CaseBlock

namespace SwitchBlock

variable {b : SwitchBlock} {p : Program} {position : Nat} {value : Int16}

/-- The bytes of the default, if there is one. -/
def defaultBytes (b : SwitchBlock) : List UInt8 := b.default?.elim [] (Line.default.encode ++ ·)

/-- What stands between the header of the switch and its end. -/
def inner (b : SwitchBlock) : List UInt8 := CaseBlock.allBytes b.cases ++ b.defaultBytes

/-- How many bytes stand behind the header, the end included. -/
def extent (b : SwitchBlock) : Nat := b.inner.length + 2

/-- The bytes of the switch. -/
def bytes (b : SwitchBlock) : List UInt8 :=
  ((Line.switch b.var).spanning b.extent).encode ++ (b.inner ++ Line.eswitch.encode)

/-- The switch can be closed. All cases can be closed then, since they are shorter. -/
def Fits (b : SwitchBlock) : Prop := b.extent < UInt16.size

instance (b : SwitchBlock) : Decidable b.Fits := inferInstanceAs (Decidable (_ < _))

/-- Steps that write cases and a default when `n` blocks have been opened before, and the number of blocks that
they open. Each case is opened, written and closed. A default is written without being opened. The bodies are
written by any steps that add their bytes. -/
inductive WritesCases : Nat → List Step → List CaseBlock → Option (List UInt8) → Nat → Prop
  | none {n : Nat} : WritesCases n [] [] .none 0
  | default {n opened : Nat} {steps : List Step} {body : List UInt8} :
      Listing.Adds n steps body opened →
      WritesCases n (.emit [Line.default] :: steps) [] (some body) opened
  | case {n j k : Nat} {value : Int16} {steps rest : List Step} {body : List UInt8}
      {cases : List CaseBlock} {default? : Option (List UInt8)} :
      Listing.Adds (n + 1) steps body j → WritesCases (n + 1 + j) rest cases default? k →
      WritesCases n (.opening (Line.case value) :: (steps ++ .close .endCase n :: rest))
        (⟨value, body⟩ :: cases) default? (1 + j + k)

/-- Steps that write a switch when `n` blocks have been opened before, and the number of blocks that they
open. -/
inductive WrittenBy (b : SwitchBlock) (n : Nat) : List Step → Nat → Prop
  | intro {steps : List Step} {k : Nat} : WritesCases (n + 1) steps b.cases b.default? k →
      WrittenBy b n (.opening (Line.switch b.var) :: (steps ++ [.close .endSwitch n])) (1 + k)

theorem Fits.short (h : b.Fits) : ∀ c ∈ b.cases, c.body.length < UInt16.size := by
  intro c hc
  have hlt := CaseBlock.length_body_lt hc
  simp only [Fits, extent, inner, List.length_append] at h
  omega

theorem WritesCases.adds {n opened : Nat} {steps : List Step}
    (h : WritesCases n steps b.cases b.default? opened)
    (hshort : ∀ c ∈ b.cases, c.body.length < UInt16.size) :
    Listing.Adds n steps b.inner opened := by
  obtain ⟨var, cases, default?⟩ := b
  simp only [inner, defaultBytes] at h hshort ⊢
  induction h with
  | none => exact .nil _
  | @default n opened steps body hbody =>
      have hheader := Listing.adds_emit n [Line.default] (by decide)
      have hboth := hheader.append (k := opened) hbody
      rw [Nat.zero_add] at hboth
      simpa using hboth
  | @case n j k value steps rest body cases default? hbody _ ih =>
      obtain ⟨hlength, hshort⟩ := List.forall_mem_cons.mp hshort
      have hcase := hbody.block .endCase [] (Line.fits_case value)
        (show 4 ≤ Opcode.case.width by decide) (fun _ => rfl) (by simpa using hlength)
      have hrest := ih hshort
      rw [Nat.add_assoc] at hrest
      have hboth := hcase.append hrest
      simpa [CaseBlock.bytes] using hboth

/-- A switch that fits comes out as its bytes, and so does one that stands in a body of another. -/
theorem WrittenBy.adds {n opened : Nat} {steps : List Step} (h : b.WrittenBy n steps opened)
    (hf : b.Fits) : Listing.Adds n steps b.bytes opened := by
  cases h with
  | intro hcases =>
      have hextent : (b.inner ++ Line.encodeAll [Line.eswitch]).length = b.extent := by
        rw [List.length_append]
        rfl
      have hblock := (hcases.adds hf.short).block .endSwitch [Line.eswitch]
        (Line.fits_switch b.var) (show 4 ≤ Opcode.switch.width by decide) (fun _ => rfl)
        (hextent ▸ hf)
      rw [hextent] at hblock
      exact hblock

theorem fits_header (b : SwitchBlock) : ((Line.switch b.var).spanning b.extent).Fits :=
  Line.fits_spanning (Line.fits_switch b.var) (show 4 ≤ Opcode.switch.width by decide) b.extent

theorem length_header (b : SwitchBlock) :
    ((Line.switch b.var).spanning b.extent).encode.length = 4 :=
  Line.length_encode b.fits_header

theorem length_bytes (b : SwitchBlock) : b.bytes.length = 4 + b.extent := by
  rw [bytes, List.length_append, List.length_append, length_header]
  rfl

/-- Where a switch stands, its header can be read, and behind it stand its cases, its default and its end. -/
theorem has_bytes (h : p.Has position b.bytes) :
    p.instructionAt position = .ok ((Line.switch b.var).spanning b.extent).instruction ∧
      p.Has (position + 4) (CaseBlock.allBytes b.cases) ∧
      p.Has (position + 4 + (CaseBlock.allBytes b.cases).length)
        (b.defaultBytes ++ Line.eswitch.encode) := by
  rw [bytes, ← Line.bytes_instruction b.fits_header, Program.has_append] at h
  obtain ⟨hheader, hinner⟩ := h
  rw [Line.bytes_instruction b.fits_header, length_header, inner, List.append_assoc,
    Program.has_append] at hinner
  exact ⟨Program.instructionAt_of_has hheader, hinner⟩

/-- Where a switch at a position is to land. The target of a case and of the default is the first byte of the
body. -/
inductive Lands (b : SwitchBlock) (p : Program) (value : Int16) (position : Nat) : Landing → Prop
  | case {front rest : List CaseBlock} {c : CaseBlock} {target : Nat} :
      b.cases = front ++ c :: rest → c.value = value → (∀ c ∈ front, c.value ≠ value) →
      target = position + 4 + (CaseBlock.allBytes front).length + 6 → p.Has target c.body →
      Lands b p value position (.body target)
  | default {body : List UInt8} {target : Nat} :
      (∀ c ∈ b.cases, c.value ≠ value) → b.default? = some body →
      target = position + 4 + (CaseBlock.allBytes b.cases).length + 2 → p.Has target body →
      Lands b p value position (.body target)
  | past : (∀ c ∈ b.cases, c.value ≠ value) → b.default? = none →
      Lands b p value position (.past (position + b.bytes.length))

/-- The walk finds the case for the value. -/
theorem lands_of_case {front rest : List CaseBlock} {c : CaseBlock} (hf : b.Fits)
    (h : p.Has position b.bytes) (hcases : b.cases = front ++ c :: rest) (hv : c.value = value)
    (hothers : ∀ c ∈ front, c.value ≠ value) :
    ∃ landing, Landing.find p.code value (position + 4) = .ok landing ∧
      b.Lands p value position landing := by
  have hhas := (has_bytes h).2.1
  have hshort := hf.short
  rw [hcases, CaseBlock.allBytes_append, CaseBlock.allBytes_cons, Program.has_append,
    Program.has_append] at hhas
  obtain ⟨hfront, hcase, _⟩ := hhas
  rw [hcases, List.forall_mem_append, List.forall_mem_cons] at hshort
  obtain ⟨hheader, hbody⟩ := CaseBlock.has_bytes hcase
  refine ⟨_, ?_, .case hcases hv hothers rfl hbody⟩
  rw [CaseBlock.find_of_others hfront hothers hshort.1, Landing.find_at_case hheader hshort.2.1,
    if_pos hv]

/-- Without a case for the value the walk finds the default or the end. -/
theorem lands_of_others (hf : b.Fits) (h : p.Has position b.bytes)
    (hothers : ∀ c ∈ b.cases, c.value ≠ value) :
    ∃ landing, Landing.find p.code value (position + 4) = .ok landing ∧
      b.Lands p value position landing := by
  obtain ⟨_, hcases, hbehind⟩ := has_bytes h
  rw [CaseBlock.find_of_others hcases hothers hf.short]
  cases hd : b.default? with
  | none =>
      rw [defaultBytes, hd] at hbehind
      have hread := Program.instructionAt_of_has (i := Line.eswitch.instruction) hbehind
      have hend : position + 4 + (CaseBlock.allBytes b.cases).length + 2 =
          position + b.bytes.length := by
        have hextent : b.extent = (CaseBlock.allBytes b.cases).length + 2 := by
          rw [extent, inner, defaultBytes, hd, Option.elim_none, List.append_nil]
        rw [length_bytes, hextent]
        omega
      refine ⟨_, ?_, .past hothers hd⟩
      rw [Landing.find_at_eswitch hread, hend]
  | some body =>
      rw [defaultBytes, hd, Option.elim_some, List.append_assoc, Program.has_append,
        Program.has_append] at hbehind
      obtain ⟨hheader, hbody, _⟩ := hbehind
      have hread := Program.instructionAt_of_has (i := Line.default.instruction) hheader
      exact ⟨_, Landing.find_at_default hread, .default hothers hd rfl hbody⟩

/-- The walk of a switch that fits lands where the switch is to land. -/
theorem lands_of_has (hf : b.Fits) (h : p.Has position b.bytes) (value : Int16) :
    ∃ landing, Landing.find p.code value (position + 4) = .ok landing ∧
      b.Lands p value position landing := by
  cases hcase : b.cases.find? fun c => c.value = value with
  | none =>
      apply lands_of_others hf h
      simpa using hcase
  | some c =>
      obtain ⟨hv, front, rest, hcases, hothers⟩ := List.find?_eq_some_iff_append.mp hcase
      exact lands_of_case hf h hcases (by simpa using hv) (by simpa using hothers)

end SwitchBlock

/-- What a landing makes of the call level whose next slot the switch has taken. -/
inductive Landing.Enters (l : CallLevel) (slot : LoopSlot) : Landing → Nat → CallLevel → Prop
  | body {target : Nat} {l' : CallLevel} : l.PushesLoop slot l' → Enters l slot (.body target) target l'
  /-- The slot is closed again. -/
  | past {target : Nat} {l' : CallLevel} : l'.SameOpen l → Enters l slot (.past target) target l'

namespace Machine

variable {p : Program} {slot : Slot} {m : Machine} {i : Instruction}

/-- What carrying out a switch over a variable comes to when its walk comes to a landing, or to a fault. -/
inductive Switches (m : Machine) (id : UInt8) (slot : LoopSlot) : Except Fault Landing → Progress → Prop
  | landed {landing : Landing} {target : Nat} {level : CallLevel} :
      landing.Enters m.thread.level slot target level →
      Switches m id slot (.ok landing)
        (.running { m with thread := m.thread.within target level, store := m.store.touchVar id })
  | stuck {fault : Fault} {level : CallLevel} : m.thread.level.PushesLoop slot level →
      Switches m id slot (.error fault)
        (.stopped { m with
          thread := m.thread.within m.thread.pc level, store := m.store.touchVar id } (.error fault))

/-- A switch with room for its slot comes to what its walk comes to. -/
theorem step_switches {id : UInt8} {length : UInt16} (hi : p.instructionAt m.thread.pc = .ok i)
    (hc : Command.ofInstruction i = .switch id length)
    (hroom : m.thread.level.openLoops < loopSlots) :
    m.Switches id (m.thread.level.slot 0 (m.thread.pc + i.width)
        (m.thread.pc + i.width + length.toNat))
      (Landing.find p.code (m.store.var id) (m.thread.pc + i.width)) (m.step p slot) := by
  have h := takesSwitch slot hi hc
  generalize m.step p slot = next at h ⊢
  cases h with
  | full hl => exact absurd hroom (Nat.not_lt.mpr (CallLevel.full_of_pushLoop? hl))
  | stuck hl hf =>
      rw [hf]
      exact .stuck (CallLevel.pushesLoop hl)
  | body hl hf =>
      rw [hf]
      exact .landed (.body (CallLevel.pushesLoop hl))
  | past hl hf =>
      rw [hf]
      exact .landed (.past (.of_pushLoop? hl))

/-- Where a switch stands that fits, it lands in the first case for its value, in its default or behind its end,
whatever bytes stand in the bodies; and the steps that write it write just its bytes. A switch in any code ends
its walk, which goes forward only, at a header at which it lands or at a position where it is lost. -/
theorem switch_dispatched (p : Program) (slot : Slot) (m : Machine) :
    (∀ b : SwitchBlock, b.Fits →
      (∀ n steps opened, b.WrittenBy n steps opened → Listing.Adds n steps b.bytes opened) ∧
      (p.Has m.thread.pc b.bytes → m.thread.level.openLoops < loopSlots →
        ∃ landing, b.Lands p (m.store.var b.var) m.thread.pc landing ∧
          m.Switches b.var
            (m.thread.level.slot 0 (m.thread.pc + 4) (m.thread.pc + b.bytes.length))
            (.ok landing) (m.step p slot))) ∧
    ∀ i, p.instructionAt m.thread.pc = .ok i → i.opcode = .switch →
      (loopSlots ≤ m.thread.level.openLoops →
        m.step p slot = .stopped { m with store := m.store.touchVar (i.byte 1) }
          (.error (.loopOverflow m.thread.pc))) ∧
      (m.thread.level.openLoops < loopSlots →
        ∃ front last result,
          Landing.Walks p.code (m.store.var (i.byte 1)) (m.thread.pc + 4) front last result ∧
          m.Switches (i.byte 1)
            (m.thread.level.slot 0 (m.thread.pc + 4) (m.thread.pc + 4 + (i.word 2).toNat))
            result (m.step p slot)) := by
  refine ⟨fun b hf => ⟨fun n steps opened hw => hw.adds hf, fun h hroom => ?_⟩, fun i hi hop => ?_⟩
  · obtain ⟨landing, hfind, hlands⟩ := SwitchBlock.lands_of_has hf h (m.store.var b.var)
    have hstep : m.Switches _ _ _ (m.step p slot) :=
      step_switches (SwitchBlock.has_bytes h).1 (Command.ofInstruction_switch b.var) hroom
    have hend : m.thread.pc + 4 + (UInt16.ofNat b.extent).toNat = m.thread.pc + b.bytes.length := by
      rw [toNat_length hf, SwitchBlock.length_bytes, Nat.add_assoc]
    simp only [Line.width_instruction, Line.opcode_spanning, Line.width_switch, hfind, hend] at hstep
    exact ⟨landing, hlands, hstep⟩
  · have hc : Command.ofInstruction i = .switch (i.byte 1) (i.word 2) := by
      simp only [Command.ofInstruction, hop]
    have hwidth : i.width = 4 := by
      rw [Instruction.width, hop]
      rfl
    refine ⟨fun hfull => ?_, fun hroom => ?_⟩
    · exact step_switch_of_full hi hc (CallLevel.pushLoop?_eq_none hfull)
    obtain ⟨front, last, hwalk⟩ :=
      Landing.exists_walk p.code (m.store.var (i.byte 1)) (m.thread.pc + 4)
    have hstep : m.Switches _ _ _ (m.step p slot) := step_switches hi hc hroom
    rw [hwidth] at hstep
    exact ⟨front, last, _, hwalk, hstep⟩

/-- A switch that stands in the body of a case. -/
def enclosed : SwitchBlock where
  var := 4
  cases := [⟨5, []⟩]

/-- Lines that a walk would stop at if it read them. -/
def bait : List UInt8 := Line.encodeAll [Line.case 2, Line.default, Line.eswitch]

/-- A switch with such lines in the body of its first case, and a switch in the body of its second. -/
def disguised : SwitchBlock where
  var := 3
  cases := [⟨1, bait⟩, ⟨2, enclosed.bytes⟩]
  default? := some []

/-- The steps that write the inner switch. -/
def enclosedSteps : List Step :=
  [.opening (Line.switch 4), .opening (Line.case 5), .close .endCase 4, .close .endSwitch 3]

/-- The steps that write the outer switch. -/
def disguisedSteps : List Step :=
  [.opening (Line.switch 3), .opening (Line.case 1), .raw bait, .close .endCase 1,
      .opening (Line.case 2)] ++
    enclosedSteps ++ [.close .endCase 2, .emit [Line.default], .close .endSwitch 0]

theorem disguised_writtenBy : disguised.WrittenBy 0 disguisedSteps 5 := by
  have hinner : SwitchBlock.WritesCases 4 [.opening (Line.case 5), .close .endCase 4]
      enclosed.cases enclosed.default? 1 := .case (.nil 5) .none
  have henclosed : enclosed.WrittenBy 3 enclosedSteps 2 := .intro hinner
  have hcases : SwitchBlock.WritesCases 1
      (.opening (Line.case 1) :: ([.raw bait] ++ .close .endCase 1 ::
        .opening (Line.case 2) :: (enclosedSteps ++ [.close .endCase 2, .emit [Line.default]])))
      disguised.cases disguised.default? 4 :=
    .case (Listing.adds_raw 2 bait)
      (.case (henclosed.adds (by decide +kernel)) (.default (.nil 5)))
  exact .intro hcases

theorem switch_dispatched_disguised :
    let p := Program.ofFunctions [Listing.assemble disguisedSteps]
    let m : Machine :=
      { thread := .start 0 0, pool := Pool.vacant, store := ({} : Store).setVar 3 2 }
    Listing.Adds 0 disguisedSteps disguised.bytes 5 ∧
      Landing.find p.code 2 4 = .ok (.body 26) ∧
      (∃ landing, disguised.Lands p 2 0 landing ∧
        m.Switches 3 ⟨0, 42, 0, 4⟩ (.ok landing) (m.step p 0)) ∧
      ∃ front last result, Landing.Walks p.code 2 4 front last result ∧
        m.Switches 3 ⟨0, 42, 0, 4⟩ result (m.step p 0) := by
  intro p m
  obtain ⟨hblock, hany⟩ := switch_dispatched p 0 m
  obtain ⟨hadds, hlands⟩ := hblock disguised (by decide +kernel)
  have hhas : p.Has 0 disguised.bytes := by
    unfold Program.Has
    decide +kernel
  have hlength : disguised.bytes.length = 42 := by decide +kernel
  have hread : p.instructionAt 0 = .ok ⟨.switch, [3, 38, 0], rfl⟩ := by decide +kernel
  have hvalue : m.store.var 3 = 2 := by decide +kernel
  have hroom : m.thread.level.openLoops < loopSlots := by decide +kernel
  refine ⟨hadds 0 disguisedSteps 5 disguised_writtenBy, by decide +kernel, ?_, ?_⟩
  · have hland := hlands hhas hroom
    rw [hlength] at hland
    exact hvalue ▸ hland
  · have hwalk := (hany _ hread rfl).2 hroom
    exact hvalue ▸ hwalk

end Machine

end RoomScript
