import Mathlib.Data.List.Forall2
import RoomScript.Proofs.Structured.Code
import RoomScript.Proofs.Structured.Typing
import RoomScript.Proofs.Termination

/-!
# Well-nested programs

Functions whose blocks are nested properly, with any other instructions in between, run into few faults.
Each position of such a function has one context, and what stands there is a piece of the function's
text: the rest of the statements of the innermost block, then the end of that block, then the rest of the
statements of the block around it, and so on outwards.
-/
namespace RoomScript

/-- The opcode is no part of the syntax of blocks, sleeps and returns. -/
def Opcode.isPlain : Opcode → Bool
  | .ifelCk | .elseCk | .endif | .sleep | .sleeping | .forLoop | .next | .switch | .case | .default
  | .eswitch | .ret | .breakOut => false
  | _ => true

/-- Statements without blocks: any other instruction, or a sleep. -/
inductive Plain where
  | line (l : Line) (h : l.opcode.isPlain)
  | sleep (ticks : UInt16)

instance : Leaf Plain where
  lines
    | .line l _ => [l]
    | .sleep ticks => Line.sleep ticks

namespace Command

variable {T : Nat → Context → Prop} {code : Array UInt8} {position behind : Nat} {ctx : Context}

/-- A plain instruction leaves everything open that is open. -/
theorem types_of_isPlain {i : Instruction} (h : i.opcode.isPlain) (hT : T behind ctx) :
    (ofInstruction i).Types T code position behind ctx := by
  unfold ofInstruction
  split <;> rename_i ho <;> first | exact hT | exact trivial | (rw [ho] at h; cases h)

end Command

/-- What a body may need of the loops and blocks around it, in a program of some functions. -/
structure Body.Suits (functions : List (Body Plain)) (inLoop : Bool) (blocks loops : Nat)
    (b : Body Plain) : Prop where
  fits : b.Fits
  breaks : b.breaksIn inLoop
  nested : ∃ f ∈ functions, blocks + b.ifDepth ≤ f.ifDepth ∧ loops + b.loopDepth ≤ f.loopDepth

/-- The same of the cases of a switch, whose loop is open already. -/
structure Cases.Suits (functions : List (Body Plain)) (blocks loops : Nat) (c : Cases Plain) :
    Prop where
  fits : c.Fits
  breaks : c.breaksIn
  nested : ∃ f ∈ functions, blocks + c.ifDepth ≤ f.ifDepth ∧ loops + c.loopDepth ≤ f.loopDepth

namespace Body.Suits

variable {functions : List (Body Plain)} {inLoop : Bool} {blocks loops : Nat}
  {body other rest : Body Plain} {cases : Cases Plain}

theorem within {b : Body Plain} (h : b.Suits functions inLoop blocks loops) :
    ∃ f ∈ functions, blocks ≤ f.ifDepth ∧ loops ≤ f.loopDepth := by
  obtain ⟨f, hf, hi, hl⟩ := h.nested
  exact ⟨f, hf, by omega, by omega⟩

theorem leaf {a : Plain} (h : (Body.leaf a rest).Suits functions inLoop blocks loops) :
    rest.Suits functions inLoop blocks loops where
  fits := h.fits.2
  breaks := h.breaks
  nested := by
    obtain ⟨f, hf, hi, hl⟩ := h.nested
    simp only [ifDepth, loopDepth] at hi hl
    exact ⟨f, hf, by omega, by omega⟩

theorem ifThen (h : (Body.ifThen body rest).Suits functions inLoop blocks loops) :
    body.Suits functions inLoop (blocks + 1) loops ∧ rest.Suits functions inLoop blocks loops := by
  obtain ⟨f, hf, hi, hl⟩ := h.nested
  have hb := Bool.and_eq_true_iff.mp h.breaks
  simp only [ifDepth, loopDepth] at hi hl
  exact ⟨⟨h.fits.2.1, hb.1, f, hf, by omega, by omega⟩,
    ⟨h.fits.2.2, hb.2, f, hf, by omega, by omega⟩⟩

theorem ifElse (h : (Body.ifElse body other rest).Suits functions inLoop blocks loops) :
    body.Suits functions inLoop (blocks + 1) loops ∧
      other.Suits functions inLoop blocks loops ∧ rest.Suits functions inLoop blocks loops := by
  obtain ⟨f, hf, hi, hl⟩ := h.nested
  obtain ⟨hb, hr⟩ := Bool.and_eq_true_iff.mp h.breaks
  obtain ⟨ho, hr⟩ := Bool.and_eq_true_iff.mp hr
  simp only [ifDepth, loopDepth] at hi hl
  obtain ⟨_, _, hfb, hfo, hfr⟩ := h.fits
  exact ⟨⟨hfb, hb, f, hf, by omega, by omega⟩, ⟨hfo, ho, f, hf, by omega, by omega⟩,
    ⟨hfr, hr, f, hf, by omega, by omega⟩⟩

theorem loop {count : UInt16}
    (h : (Body.loop count body rest).Suits functions inLoop blocks loops) :
    body.Suits functions true blocks (loops + 1) ∧ rest.Suits functions inLoop blocks loops := by
  obtain ⟨f, hf, hi, hl⟩ := h.nested
  have hb := Bool.and_eq_true_iff.mp h.breaks
  simp only [ifDepth, loopDepth] at hi hl
  exact ⟨⟨h.fits.2.1, hb.1, f, hf, by omega, by omega⟩,
    ⟨h.fits.2.2, hb.2, f, hf, by omega, by omega⟩⟩

theorem switch {var : UInt8}
    (h : (Body.switch var cases rest).Suits functions inLoop blocks loops) :
    cases.Suits functions blocks (loops + 1) ∧ rest.Suits functions inLoop blocks loops := by
  obtain ⟨f, hf, hi, hl⟩ := h.nested
  have hb := Bool.and_eq_true_iff.mp h.breaks
  simp only [ifDepth, loopDepth] at hi hl
  exact ⟨⟨h.fits.2.1, hb.1, f, hf, by omega, by omega⟩,
    ⟨h.fits.2.2, hb.2, f, hf, by omega, by omega⟩⟩

theorem breakOut (h : (Body.breakOut rest).Suits functions inLoop blocks loops) :
    inLoop = true ∧ rest.Suits functions inLoop blocks loops := by
  have hb := Bool.and_eq_true_iff.mp h.breaks
  exact ⟨hb.1, h.fits, hb.2, h.nested⟩

end Body.Suits

namespace Cases.Suits

variable {functions : List (Body Plain)} {blocks loops : Nat} {body : Body Plain}
  {rest : Cases Plain}

theorem within {cases : Cases Plain} (h : cases.Suits functions blocks loops) :
    ∃ f ∈ functions, blocks ≤ f.ifDepth ∧ loops ≤ f.loopDepth := by
  obtain ⟨f, hf, hi, hl⟩ := h.nested
  exact ⟨f, hf, by omega, by omega⟩

theorem default (h : (Cases.default body).Suits functions blocks loops) :
    body.Suits functions true blocks loops :=
  ⟨h.fits, h.breaks, h.nested⟩

theorem case {value : Int16} (h : (Cases.case value body rest).Suits functions blocks loops) :
    body.Suits functions true blocks loops ∧ rest.Suits functions blocks loops := by
  obtain ⟨f, hf, hi, hl⟩ := h.nested
  have hb := Bool.and_eq_true_iff.mp h.breaks
  simp only [ifDepth, loopDepth] at hi hl
  exact ⟨⟨h.fits.2.1, hb.1, f, hf, by omega, by omega⟩,
    ⟨h.fits.2.2, hb.2, f, hf, by omega, by omega⟩⟩

end Cases.Suits

/-- No function is nested less than a context. -/
def Context.Within (functions : List (Body Plain)) (ctx : Context) : Prop :=
  ∃ f ∈ functions, ctx.blocks ≤ f.ifDepth ∧ ctx.loops ≤ f.loopDepth

/-- Bodies stand one behind the other from a position on, in some context, and behind the last of them
comes what ends the innermost block of the context. -/
inductive Stands (p : Program) (functions : List (Body Plain)) (ends : Nat → Prop) (ctx : Context) :
    Nat → Prop where
  | nil {position : Nat} : ctx.Within functions → ends position → Stands p functions ends ctx position
  | cons {position : Nat} (b : Body Plain) :
    b.Suits functions ctx.break?.isSome ctx.blocks ctx.loops → p.Lists position b.lines →
      Stands p functions ends ctx (position + Line.extent b.lines) →
      Stands p functions ends ctx position

/-- The cases of a switch stand at a position and their end in front of another. -/
structure Cases.Stand (p : Program) (functions : List (Body Plain)) (ctx : Context)
    (target position : Nat) (cases : Cases Plain) : Prop where
  suits : cases.Suits functions ctx.blocks (ctx.loops + 1)
  lists : p.Lists position (cases.lines ++ [.eswitch])
  target_eq : target = position + Line.extent cases.lines + 2

/-- The innermost block of a context ends at a position, with the rest of its surroundings behind it.
A switch ends with the cases that are still to come. -/
def Ends (p : Program) (functions : List (Body Plain)) : Context → Nat → Prop
  | [], position => p.instructionAt position = .ok Line.evtEnd.instruction
  | .block target :: ctx, position =>
    Stands p functions (Ends p functions ctx) ctx target ∧
      ((p.instructionAt position = .ok Line.endif.instruction ∧ target = position + 2) ∨
        ∃ length, length < UInt16.size ∧
          p.instructionAt position = .ok (Line.elseCk.spanning length).instruction ∧
          target = position + 4 ∧ Stands p functions (Ends p functions ctx) ctx (target + length))
  | .loop _ start target :: ctx, position =>
    Stands p functions (Ends p functions ctx) ctx target ∧
      ((p.instructionAt position = .ok Line.next.instruction ∧ target = position + 2 ∧
          ∃ b : Body Plain, b.Suits functions true (Context.blocks ctx) (Context.loops ctx + 1) ∧
            p.Lists start b.lines ∧ start + Line.extent b.lines = position) ∨
        ∃ cases : Cases Plain, cases.Stand p functions ctx target position)

/-- A piece of the text stands at a position in a context. -/
abbrev Reads (p : Program) (functions : List (Body Plain)) (ctx : Context) : Nat → Prop :=
  Stands p functions (Ends p functions ctx) ctx

/-- The second instruction of a sleep stands at a position, with its loop as the innermost. -/
def Sleeps (p : Program) (functions : List (Body Plain)) (position : Nat) : Context → Prop
  | .loop counter start target :: ctx =>
    Context.Within functions (.loop counter start target :: ctx) ∧
      (∃ i, p.instructionAt position = .ok i ∧ i.opcode = .sleeping) ∧
      start = position ∧ Reads p functions ctx (position + 3)
  | _ => False

/-- A position has a context in a program of well-nested functions. -/
def At (p : Program) (functions : List (Body Plain)) (position : Nat) (ctx : Context) : Prop :=
  Reads p functions ctx position ∨ Sleeps p functions position ctx

/-- The instruction at a position leads from a context to contexts of the positions behind it. -/
def Leads (p : Program) (functions : List (Body Plain)) (position : Nat) (ctx : Context) : Prop :=
  ∃ i, p.instructionAt position = .ok i ∧ (Command.ofInstruction i).Types (At p functions) p.code
    position (position + i.width) ctx

section Text

variable {p : Program} {functions : List (Body Plain)} {ctx rest : Context}
  {position target start : Nat} {counter : UInt16}

namespace Reads

theorem within (h : Reads p functions ctx position) : ctx.Within functions := by
  cases h with
  | nil hw _ => exact hw
  | cons b hb _ _ => exact hb.within

theorem ends (h : Reads p functions ctx position) : ∃ position, Ends p functions ctx position := by
  induction h with
  | nil _ he => exact ⟨_, he⟩
  | cons _ _ _ _ ih => exact ih

/-- A failed condition goes on in the text. -/
theorem failure (h : Reads p functions ctx position) (hf : ctx.failure? = some (target, rest)) :
    Reads p functions rest target := by
  induction ctx generalizing position with
  | nil => cases hf
  | cons f above ih =>
      obtain ⟨_, he⟩ := h.ends
      cases f with
      | block t =>
          cases hf
          exact he.1
      | loop counter start t => exact ih he.1 hf

/-- A break in a loop goes on in the text. -/
theorem breakOut (h : Reads p functions ctx position) (hb : ctx.break?.isSome) :
    ∃ target rest, ctx.break? = some (target, rest) ∧ Reads p functions rest target := by
  induction ctx generalizing position with
  | nil => cases hb
  | cons f above ih =>
      obtain ⟨_, he⟩ := h.ends
      cases f with
      | block t => exact ih he.1 hb
      | loop counter start t => exact ⟨t, above, rfl, he.1⟩

end Reads

namespace Cases.Stand

variable {body : Body Plain} {cases : Cases Plain} {value : Int16}

/-- Behind the header of a default the text goes on with its body. -/
theorem default (h : (Cases.default body).Stand p functions ctx target position)
    (hr : Reads p functions ctx target) :
    Reads p functions (.loop counter start target :: ctx) (position + 2) := by
  have hl := h.lists
  have ht := h.target_eq
  simp only [lines, List.cons_append, Program.lists_cons, Program.lists_append,
    Line.width_default, Line.extent_cons] at hl ht
  have hend : Cases.none.Stand p functions ctx target (position + 2 + Line.extent body.lines) :=
    { suits := ⟨trivial, rfl, by simpa [Cases.ifDepth, Cases.loopDepth] using h.suits.default.within⟩
      lists := hl.2.2
      target_eq := by simp only [lines, Line.extent_nil]; omega }
  exact .cons body h.suits.default hl.2.1 (.nil h.suits.default.within ⟨hr, .inr ⟨_, hend⟩⟩)

/-- Behind the header of a case the text goes on with its body, and then with the other cases. -/
theorem case (h : (Cases.case value body cases).Stand p functions ctx target position)
    (hr : Reads p functions ctx target) :
    cases.Stand p functions ctx target (position + 6 + Line.extent body.lines) ∧
      Reads p functions (.loop counter start target :: ctx) (position + 6) := by
  have hl := h.lists
  have ht := h.target_eq
  simp only [lines, List.cons_append, List.append_assoc, Program.lists_cons,
    Program.lists_append, Line.opcode_spanning, Line.width_case, Line.extent_cons,
    Line.extent_append] at hl ht
  have hend : cases.Stand p functions ctx target (position + 6 + Line.extent body.lines) :=
    { suits := h.suits.case.2
      lists := Program.lists_append.mpr hl.2.2
      target_eq := by omega }
  exact ⟨hend, .cons body h.suits.case.1 hl.2.1
    (.nil h.suits.case.1.within ⟨hr, .inr ⟨_, hend⟩⟩)⟩

end Cases.Stand

/-- A switch lands in the text, whatever its value. -/
theorem Cases.Stand.landing (value : Int16) : ∀ {cases : Cases Plain} {position : Nat},
    cases.Stand p functions ctx target position → Reads p functions ctx target →
      ∀ {landing : Nat}, cases.landing? value position = some landing →
        Reads p functions (.loop counter start target :: ctx) landing
  | .none, _, _, _, _, hl => by cases hl
  | .default _, _, h, hr, _, hl => by
      cases hl
      exact h.default hr
  | .case v body cases, position, h, hr, landing, hl => by
      obtain ⟨hcases, hbody⟩ := h.case hr
      by_cases hv : v = value
      · rw [Cases.landing?, if_pos hv] at hl
        cases hl
        exact hbody
      · rw [Cases.landing?, if_neg hv] at hl
        exact hcases.landing value hr hl

/-- The end of a block leads to the text behind it. -/
theorem Ends.leads (hw : ctx.Within functions) (h : Ends p functions ctx position) :
    Leads p functions position ctx := by
  cases ctx with
  | nil => exact ⟨_, h, trivial⟩
  | cons f ctx =>
      cases f with
      | block target =>
          obtain ⟨hr, ⟨hi, rfl⟩ | ⟨length, hlt, hi, rfl, hbehind⟩⟩ := h
          · exact ⟨_, hi, _, ctx, rfl, .inl hr⟩
          · refine ⟨_, hi, ?_⟩
            rw [Command.ofInstruction_elseCk]
            refine ⟨_, ctx, rfl, .inl ?_⟩
            rw [toNat_length hlt]
            exact hbehind
      | loop counter start target =>
          obtain ⟨hr, ⟨hi, rfl, b, hb, hl, rfl⟩ | ⟨cases, hcases⟩⟩ := h
          · refine ⟨_, hi, counter, start, _, ctx, rfl, .inl hr, fun counter' => .inl ?_⟩
            exact .cons b hb hl (.nil hb.within ⟨hr, .inl ⟨hi, rfl, b, hb, hl, rfl⟩⟩)
          · have hl := hcases.lists
            cases cases with
            | none =>
                refine ⟨_, hl.1, counter, start, target, ctx, rfl, .inl ?_⟩
                have ht := hcases.target_eq
                exact ht ▸ hr
            | default body => exact ⟨_, hl.1, .inl (hcases.default hr)⟩
            | case value body rest => exact ⟨_, hl.1, .inl (hcases.case hr).2⟩

namespace Body.Suits

variable {body other rest : Body Plain} {cases : Cases Plain}

/-- What the text needs behind a statement follows from what it needs behind the rest. -/
theorem reads {behind last : Nat}
    (hb : rest.Suits functions ctx.break?.isSome ctx.blocks ctx.loops)
    (hl : p.Lists behind rest.lines) (hr : Reads p functions ctx last)
    (he : last = behind + Line.extent rest.lines) : Reads p functions ctx behind :=
  .cons rest hb hl (he ▸ hr)

theorem leads_line {l : Line} {h : l.opcode.isPlain}
    (hb : (Body.leaf (.line l h) rest).Suits functions ctx.break?.isSome ctx.blocks ctx.loops)
    (hl : p.Lists position (Body.leaf (.line l h) rest).lines)
    (hr : Reads p functions ctx (position + Line.extent (Body.leaf (.line l h) rest).lines)) :
    Leads p functions position ctx := by
  refine ⟨_, hl.1, Command.types_of_isPlain h (.inl (hb.leaf.reads hl.2 hr ?_))⟩
  simp [Body.lines, Leaf.lines, Nat.add_assoc]

theorem leads_sleep {ticks : UInt16}
    (hb : (Body.leaf (.sleep ticks) rest).Suits functions ctx.break?.isSome ctx.blocks ctx.loops)
    (hl : p.Lists position (Body.leaf (.sleep ticks) rest).lines)
    (hr : Reads p functions ctx (position + Line.extent (Body.leaf (.sleep ticks) rest).lines)) :
    Leads p functions position ctx := by
  obtain ⟨f, hf, hblocks, hloops⟩ := hb.nested
  have hslots : 1 ≤ (Body.leaf (Plain.sleep ticks) rest).loopDepth := Nat.le_max_left _ _
  have hlast : position + Line.extent (Body.leaf (.sleep ticks) rest).lines =
      position + 4 + 3 + Line.extent rest.lines := by
    simp only [Body.lines, Leaf.lines, Line.extent_append, ← Nat.add_assoc]
    rfl
  refine ⟨_, hl.1, fun counter => .inr ⟨⟨f, hf, ?_, ?_⟩, ⟨_, hl.2.1, rfl⟩, rfl, ?_⟩⟩
  · unfold Context.blocks
    omega
  · unfold Context.loops
    omega
  · exact hb.leaf.reads hl.2.2 hr hlast

theorem leads_ifThen
    (hb : (Body.ifThen body rest).Suits functions ctx.break?.isSome ctx.blocks ctx.loops)
    (hl : p.Lists position (Body.ifThen body rest).lines)
    (hr : Reads p functions ctx (position + Line.extent (Body.ifThen body rest).lines)) :
    Leads p functions position ctx := by
  obtain ⟨hbody, hrest⟩ := hb.ifThen
  obtain ⟨hi, hlbody, hend, hlrest⟩ := Body.lists_ifThen hl
  rw [Body.extent_ifThen] at hr
  have hbehind := hrest.reads hlrest hr (by omega)
  refine ⟨_, hi, ?_⟩
  rw [Command.ofInstruction_ifelCk]
  refine .inl (.cons body hbody hlbody (.nil hbody.within ⟨?_, .inl ⟨hend, ?_⟩⟩))
  · rw [toNat_length hb.fits.1]
    exact hbehind
  · rw [toNat_length hb.fits.1]
    rfl

theorem leads_ifElse
    (hb : (Body.ifElse body other rest).Suits functions ctx.break?.isSome ctx.blocks ctx.loops)
    (hl : p.Lists position (Body.ifElse body other rest).lines)
    (hr : Reads p functions ctx (position + Line.extent (Body.ifElse body other rest).lines)) :
    Leads p functions position ctx := by
  obtain ⟨hbody, hother, hrest⟩ := hb.ifElse
  obtain ⟨hi, hlbody, helse, hlother, hlrest⟩ := Body.lists_ifElse hl
  rw [Body.extent_ifElse] at hr
  have hbehind := hrest.reads hlrest hr (by omega)
  have helsewhere := hother.reads hlother hbehind rfl
  refine ⟨_, hi, ?_⟩
  rw [Command.ofInstruction_ifelCk]
  refine .inl (.cons body hbody hlbody
    (.nil hbody.within ⟨?_, .inr ⟨_, hb.fits.2.1, helse, ?_, ?_⟩⟩))
  · rw [toNat_length hb.fits.1]
    exact helsewhere
  · rw [toNat_length hb.fits.1]
    rfl
  · rw [toNat_length hb.fits.1]
    exact hbehind

theorem leads_loop {count : UInt16}
    (hb : (Body.loop count body rest).Suits functions ctx.break?.isSome ctx.blocks ctx.loops)
    (hl : p.Lists position (Body.loop count body rest).lines)
    (hr : Reads p functions ctx (position + Line.extent (Body.loop count body rest).lines)) :
    Leads p functions position ctx := by
  obtain ⟨hbody, hrest⟩ := hb.loop
  obtain ⟨hi, hlbody, hend, hlrest⟩ := Body.lists_loop hl
  rw [Body.extent_loop] at hr
  have hbehind := hrest.reads hlrest hr (by omega)
  refine ⟨_, hi, ?_⟩
  rw [Command.ofInstruction_forLoop]
  constructor
  · rw [toNat_length hb.fits.1]
    exact .inl hbehind
  · intro counter
    refine .inl (.cons body hbody hlbody
      (.nil hbody.within ⟨?_, .inl ⟨hend, ?_, body, hbody, hlbody, rfl⟩⟩))
    · rw [toNat_length hb.fits.1]
      exact hbehind
    · rw [toNat_length hb.fits.1]
      rfl

theorem leads_switch {var : UInt8}
    (hb : (Body.switch var cases rest).Suits functions ctx.break?.isSome ctx.blocks ctx.loops)
    (hl : p.Lists position (Body.switch var cases rest).lines)
    (hr : Reads p functions ctx (position + Line.extent (Body.switch var cases rest).lines)) :
    Leads p functions position ctx := by
  obtain ⟨hsuits, hrest⟩ := hb.switch
  obtain ⟨hi, hlists, hlrest⟩ := Body.lists_switch hl
  rw [Body.extent_switch] at hr
  have hbehind := hrest.reads hlrest hr (by omega)
  have hcases : cases.Stand p functions ctx (position + 4 + Line.extent cases.lines + 2)
      (position + 4) := ⟨hsuits, hlists, rfl⟩
  have hnil : Reads p functions (.loop 0 (position + 4)
      (position + 4 + Line.extent cases.lines + 2) :: ctx) (position + 4) :=
    .nil hsuits.within ⟨hbehind, .inr ⟨cases, hcases⟩⟩
  refine ⟨_, hi, ?_⟩
  rw [Command.ofInstruction_switch]
  simp only [Command.Types, toNat_length hb.fits.1]
  refine ⟨⟨_, .inl hnil⟩, fun value => ?_⟩
  have hfind := Cases.find_eq value hsuits.fits hlists
  cases hland : cases.landing? value (position + 4) with
  | some landing =>
      rw [hland] at hfind
      exact .inl ⟨landing, hfind, .inl (hcases.landing value hbehind hland)⟩
  | none =>
      rw [hland] at hfind
      exact .inr ⟨_, hfind, .inl hbehind⟩

end Body.Suits

theorem Reads.leads (h : Reads p functions ctx position) : Leads p functions position ctx := by
  induction h with
  | nil hw he => exact he.leads hw
  | cons b hb hl hr ih =>
      cases b with
      | done => exact ih
      | leaf a rest =>
          cases a with
          | line l hplain => exact hb.leads_line hl hr
          | sleep ticks => exact hb.leads_sleep hl hr
      | ifThen body rest => exact hb.leads_ifThen hl hr
      | ifElse body other rest => exact hb.leads_ifElse hl hr
      | loop count body rest => exact hb.leads_loop hl hr
      | switch var cases rest => exact hb.leads_switch hl hr
      | breakOut rest =>
          obtain ⟨target, outer, hbreak, hout⟩ := Reads.breakOut hr hb.breakOut.1
          exact ⟨_, hl.1, target, outer, hbreak, .inl hout⟩

theorem Sleeps.leads (h : Sleeps p functions position ctx) : Leads p functions position ctx := by
  cases ctx with
  | nil => exact h.elim
  | cons f ctx =>
      cases f with
      | block target => exact h.elim
      | loop counter start target =>
          obtain ⟨hw, ⟨i, hi, hop⟩, rfl, hr⟩ := h
          refine ⟨i, hi, ?_⟩
          have hc : Command.ofInstruction i = .flow .sleeping := by
            simp only [Command.ofInstruction, hop]
          have hwidth : i.width = 3 := by
            rw [Instruction.width, hop]
            rfl
          rw [hc, hwidth]
          exact ⟨counter, start, target, ctx, rfl, .inl hr, fun counter' =>
            .inr ⟨hw, ⟨i, hi, hop⟩, rfl, hr⟩⟩

theorem Sleeps.failure (h : Sleeps p functions position ctx)
    (hf : ctx.failure? = some (target, rest)) : Reads p functions rest target := by
  cases ctx with
  | nil => exact h.elim
  | cons f ctx =>
      cases f with
      | block t => exact h.elim
      | loop counter start t => exact h.2.2.2.failure hf

theorem At.within (h : At p functions position ctx) : ctx.Within functions := by
  rcases h with h | h
  · exact h.within
  · cases ctx with
    | nil => exact h.elim
    | cons f ctx =>
        cases f with
        | block target => exact h.elim
        | loop counter start target => exact h.1

end Text

/-- The functions of a program are written from well-nested bodies. -/
structure WellNested (functions : List (Body Plain)) (codes : List (List UInt8)) : Prop where
  written : List.Forall₂ (fun f code => f.function = .ok code) functions codes
  breaks : ∀ f ∈ functions, f.breaksIn false

namespace WellNested

variable {functions : List (Body Plain)} {codes : List (List UInt8)}

theorem exists_function (h : WellNested functions codes) {code : List UInt8} (hc : code ∈ codes) :
    ∃ f ∈ functions, f.function = .ok code := by
  have hw := h.written
  clear h
  induction hw with
  | nil => cases hc
  | cons hf _ ih =>
      rcases List.mem_cons.mp hc with rfl | hc
      · exact ⟨_, by simp, hf⟩
      · obtain ⟨f, hf, hcode⟩ := ih hc
        exact ⟨f, by simp [hf], hcode⟩

/-- The text of a function stands where its event starts. -/
theorem reads_entry (h : WellNested functions codes) {event : UInt8} {entry : Nat}
    (he : Program.entry? (Program.ofFunctions codes) event = some entry) :
    Reads (Program.ofFunctions codes) functions [] entry := by
  obtain ⟨code, hcode, hhas⟩ := Program.has_of_entry? he
  obtain ⟨f, hf, hwritten⟩ := h.exists_function hcode
  obtain ⟨hfits, hlists⟩ := Body.lists_of_function hwritten hhas
  rw [Program.lists_append] at hlists
  exact .cons f ⟨hfits, h.breaks f hf, f, hf, by simp [Context.blocks], by simp [Context.loops]⟩
    hlists.1 (.nil ⟨f, hf, Nat.zero_le _, Nat.zero_le _⟩ hlists.2.1)

theorem typing (h : WellNested functions codes) :
    Typing (Program.ofFunctions codes) (At (Program.ofFunctions codes) functions) where
  entry he := .inl (h.reads_entry he)
  command ht := ht.elim Reads.leads Sleeps.leads
  failure ht hf := .inl (ht.elim (·.failure hf) (·.failure hf))

end WellNested

/-- In a program of well-nested functions threads only fail by asking for a missing event, by dividing by
zero and by calling subroutines too deep, or by opening more if-bodies or loops than there is room for in
a function that nests them deeper than that. -/
theorem Interpreter.Reachable.well_nested_faults {functions : List (Body Plain)}
    {codes : List (List UInt8)} (h : WellNested functions codes) {it : Interpreter}
    (hr : it.Reachable (· = Program.ofFunctions codes)) (slot : Slot) {fault : Fault}
    (hf : (it.runThread (Program.ofFunctions codes) slot.val).result = .error fault) :
    fault.Allowed (∃ f ∈ functions, jumpStackDepth < f.ifDepth)
      (∃ f ∈ functions, loopSlots < f.loopDepth) := by
  rw [Interpreter.runThread_val] at hf
  have hallowed := h.typing.allowed hr hf
  cases fault with
  | jumpStackOverflow position =>
      obtain ⟨_, ctx, hat, hdeep⟩ := hallowed
      obtain ⟨f, hmem, hblocks, _⟩ := hat.within
      exact ⟨f, hmem, Nat.lt_of_lt_of_le hdeep hblocks⟩
  | loopOverflow position =>
      obtain ⟨_, ctx, hat, hdeep⟩ := hallowed
      obtain ⟨f, hmem, _, hloops⟩ := hat.within
      exact ⟨f, hmem, Nat.lt_of_lt_of_le hdeep hloops⟩
  | _ => exact hallowed

/-- A loop around a conditional block that calls a subroutine. -/
def calling : Body Plain :=
  .loop 2 (.ifThen (.leaf (.line (Line.gosub 9) rfl) .done) .done) .done

/-- Its only function is the event 0, so that there is no event 9 to call. -/
theorem Interpreter.well_nested_faults_calling :
    let code := Line.encodeAll (calling.lines ++ [.evtEnd])
    let p := Program.ofFunctions [code]
    let it := (({} : Interpreter).serve p (.startEvent 0)).interpreter
    WellNested [calling] [code] ∧ it.Reachable (· = p) ∧
      (it.runThread p (0 : Slot).val).result = .error (.unknownEvent 9) ∧
      (Fault.unknownEvent 9).Allowed (∃ f ∈ [calling], jumpStackDepth < f.ifDepth)
        (∃ f ∈ [calling], loopSlots < f.loopDepth) := by
  intro code p it
  have hwell : WellNested [calling] [code] := ⟨.cons rfl .nil, by decide⟩
  have hreach : it.Reachable (· = p) := .serve (.startEvent 0) rfl .fresh
  have hstops : ((it.machine 0).runFor p 0 3).2 = .error (.unknownEvent 9) := by decide +kernel
  have hrun : (it.runThread p (0 : Slot).val).result = .error (.unknownEvent 9) := by
    rw [runThread_val, runSlot_of_runFor (hreach.mono fun _ _ => trivial) rfl
      (show ((it.machine 0).runFor p 0 3).2 ≠ .ok .exhausted by rw [hstops]; exact nofun),
      result_reportOf, hstops]
  exact ⟨hwell, hreach, hrun, hreach.well_nested_faults hwell 0 hrun⟩

end RoomScript
