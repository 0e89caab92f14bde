import RoomScript.Proofs.Dispatch.Levels
import RoomScript.Proofs.Structured.Context

/-!
# Contexts of positions

A typing gives each position of a program the contexts in which a call level may stand there, and no
others: every instruction leads from its contexts to contexts of the positions behind it, and a condition
that fails leaves a context for another. In a typed program every level that a session reaches shows a
context of its position, so that the only faults left are those of missing events, of division and of
stacks that are too small.
-/
namespace RoomScript

/-- The instruction of a command leads from a context to contexts of the typing. -/
def Command.Types (T : Nat → Context → Prop) (code : Array UInt8) (position behind : Nat)
    (ctx : Context) : Command → Prop
  | .flow .endEvent => True
  | .flow .ret => False
  | .flow (.gosub _) => T behind ctx
  | .flow (.openIf length) => T behind (.block (behind + length.toNat) :: ctx)
  | .flow (.openElse length) =>
    ∃ target rest, ctx = .block target :: rest ∧ T (behind + length.toNat) rest
  | .flow .closeIf => ∃ target rest, ctx = .block target :: rest ∧ T behind rest
  | .flow (.sleep _) => ∀ counter, T behind (.loop counter behind behind :: ctx)
  | .flow .sleeping =>
    ∃ c start target rest, ctx = .loop c start target :: rest ∧ T behind rest ∧
      ∀ counter, T position (.loop counter start target :: rest)
  | .flow (.openFor length _) =>
    T (behind + length.toNat) ctx ∧
      ∀ counter, T behind (.loop counter behind (behind + length.toNat) :: ctx)
  | .flow .next =>
    ∃ c start target rest, ctx = .loop c start target :: rest ∧ T behind rest ∧
      ∀ counter, T start (.loop counter start target :: rest)
  | .flow .closeSwitch => ∃ c start target rest, ctx = .loop c start target :: rest ∧ T behind rest
  | .flow .breakOut => ∃ target rest, ctx.break? = some (target, rest) ∧ T target rest
  | .flow (.workSet _) => T behind ctx
  | .data _ => T behind ctx
  | .event _ => T behind ctx
  | .switch _ length =>
    (∃ position, T position (.loop 0 behind (behind + length.toNat) :: ctx)) ∧
      ∀ value,
        (∃ target, Landing.find code value behind = .ok (.body target) ∧
          T target (.loop 0 behind (behind + length.toNat) :: ctx)) ∨
        ∃ target, Landing.find code value behind = .ok (.past target) ∧ T target ctx
  | .world _ => T behind ctx

namespace Command.Types

variable {T : Nat → Context → Prop} {code : Array UInt8} {position behind : Nat} {ctx : Context}
  {c : Command}

theorem closesBlock (h : c.Types T code position behind ctx) (hc : c.ClosesBlock) :
    ∃ target rest, ctx = .block target :: rest := by
  cases c with
  | flow c =>
      cases c with
      | openElse length =>
          obtain ⟨target, rest, he, _⟩ := h
          exact ⟨target, rest, he⟩
      | closeIf =>
          obtain ⟨target, rest, he, _⟩ := h
          exact ⟨target, rest, he⟩
      | _ => exact hc.elim
  | _ => exact hc.elim

theorem opensLoop (h : c.Types T code position behind ctx) (hc : c.OpensLoop) :
    ∃ next counter start target, T next (.loop counter start target :: ctx) := by
  cases c with
  | flow c =>
      cases c with
      | sleep ticks => exact ⟨_, ticks, _, _, h ticks⟩
      | openFor length count => exact ⟨_, count, _, _, h.2 count⟩
      | _ => exact hc.elim
  | switch id length =>
      obtain ⟨next, hnext⟩ := h.1
      exact ⟨next, _, _, _, hnext⟩
  | _ => exact hc.elim

theorem needsLoop (h : c.Types T code position behind ctx) (hc : c.NeedsLoop) :
    ∃ target rest, ctx.break? = some (target, rest) := by
  cases c with
  | flow c =>
      cases c with
      | sleeping =>
          obtain ⟨_, _, target, rest, rfl, _⟩ := h
          exact ⟨target, rest, rfl⟩
      | next =>
          obtain ⟨_, _, target, rest, rfl, _⟩ := h
          exact ⟨target, rest, rfl⟩
      | closeSwitch =>
          obtain ⟨_, _, target, rest, rfl, _⟩ := h
          exact ⟨target, rest, rfl⟩
      | breakOut =>
          obtain ⟨target, rest, hb, _⟩ := h
          exact ⟨target, rest, hb⟩
      | _ => exact hc.elim
  | _ => exact hc.elim

end Command.Types

/-- The contexts of the positions of a program. -/
structure Typing (p : Program) (T : Nat → Context → Prop) : Prop where
  entry : ∀ {event : UInt8} {entry : Nat}, p.entry? event = some entry → T entry []
  command : ∀ {position : Nat} {ctx : Context}, T position ctx →
    ∃ i, p.instructionAt position = .ok i ∧
      (Command.ofInstruction i).Types T p.code position (position + i.width) ctx
  failure : ∀ {position target : Nat} {ctx rest : Context},
    T position ctx → ctx.failure? = some (target, rest) → T target rest

/-- The faults of a typed program. A stack overflows only where the typing needs more than it holds. -/
def Fault.Allowed (deepBlocks deepLoops : Prop) : Fault → Prop
  | .unknownEvent _ => True
  | .callStackOverflow _ => True
  | .divisionByZero _ => True
  | .jumpStackOverflow _ => deepBlocks
  | .loopOverflow _ => deepLoops
  | _ => False

namespace Typing

variable {p : Program} {T : Nat → Context → Prop} {position : Nat} {ctx : Context} {l l' : CallLevel}
  {i : Instruction}

theorem types (h : Typing p T) (hT : T position ctx) (hi : p.instructionAt position = .ok i)
    {c : Command} (hc : Command.ofInstruction i = c) :
    c.Types T p.code position (position + i.width) ctx := by
  obtain ⟨i', hi', htypes⟩ := h.command hT
  rw [hi] at hi'
  cases hi'
  rwa [hc] at htypes

/-- A switch finds a landing for every value, in its slot or with the slot gone again. -/
theorem lands (h : Typing p T) (hT : T position ctx) (hi : p.instructionAt position = .ok i)
    {id : UInt8} {length : UInt16} (hc : Command.ofInstruction i = .switch id length) {value : Int16}
    {landing : Except Fault Landing}
    (hf : Landing.find p.code value (position + i.width) = landing) :
    (∃ target, landing = .ok (.body target) ∧
      T target (.loop 0 (position + i.width) (position + i.width + length.toNat) :: ctx)) ∨
    ∃ target, landing = .ok (.past target) ∧ T target ctx := by
  subst hf
  exact (h.types hT hi hc).2 value

/-- A position of the typing holds an instruction. -/
theorem instructionAt_ne_error (h : Typing p T) (hT : T position ctx) (cause : DecodeError) :
    p.instructionAt position ≠ .error cause := by
  obtain ⟨i, hi, _⟩ := h.command hT
  rw [hi]
  exact nofun

theorem passes (h : Typing p T) (hT : T position ctx) (hi : p.instructionAt position = .ok i)
    (hp : (Command.ofInstruction i).Passes) : T (position + i.width) ctx := by
  have ht := h.types hT hi rfl
  revert hp ht
  cases Command.ofInstruction i with
  | flow c => cases c <;> first | exact fun hp => hp.elim | exact fun _ ht => ht
  | switch id length => exact fun hp => hp.elim
  | _ => exact fun _ ht => ht

/-- Every level in use shows a context of its position. -/
theorem invariant (h : Typing p T) :
    CallLevel.Invariant p fun position l => ∃ ctx, T position ctx ∧ l.Shows ctx where
  start address he := ⟨[], h.entry he, .fresh address⟩
  resync := fun ⟨ctx, hT, hs⟩ => ⟨ctx, hT, hs.resync⟩
  move := by
    rintro position target l l' ⟨ctx, hT, hs⟩ hm
    cases hm with
    | skip hi => exact absurd hi (h.instructionAt_ne_error hT _)
    | pass hi hp => exact ⟨ctx, h.passes hT hi hp, hs⟩
    | openIf hi hc ho => exact ⟨_, h.types hT hi hc, hs.opens ho⟩
    | openElse hi hc hb =>
        obtain ⟨t, rest, rfl, hrest⟩ := h.types hT hi hc
        exact ⟨rest, hrest, (hs.closes hb).2⟩
    | closeIf hi hc hb =>
        obtain ⟨t, rest, rfl, hrest⟩ := h.types hT hi hc
        exact ⟨rest, hrest, (hs.closes hb).2⟩
    | sleep hi hc hp => exact ⟨_, h.types hT hi hc _, hs.pushes hp⟩
    | wake hi hc hl hz =>
        obtain ⟨c, start, t, rest, rfl, hrest, _⟩ := h.types hT hi hc
        exact ⟨rest, hrest, hs.popLoop⟩
    | passFor hi hc => exact ⟨ctx, (h.types hT hi hc).1, hs⟩
    | openFor hi hc _ hp => exact ⟨_, (h.types hT hi hc).2 _, hs.pushes hp⟩
    | again hi hc hl hn =>
        obtain ⟨c, start, t, rest, rfl, _, hstart⟩ := h.types hT hi hc
        rw [hs.currentLoop?] at hl
        cases hl
        exact ⟨_, hstart _, hs.setLoop _⟩
    | closeFor hi hc hl _ =>
        obtain ⟨c, start, t, rest, rfl, hrest, _⟩ := h.types hT hi hc
        rw [hs.currentLoop?] at hl
        cases hl
        exact ⟨rest, hrest, (hs.setLoop 0).popLoop⟩
    | closeSwitch hi hc hl =>
        obtain ⟨c, start, t, rest, rfl, hrest⟩ := h.types hT hi hc
        exact ⟨rest, hrest, hs.popLoop⟩
    | breakOut hi hc hl =>
        obtain ⟨t, rest, hb, ht⟩ := h.types hT hi hc
        obtain ⟨slot, hslot, rfl, hshows⟩ := hs.breakOut hb
        rw [hl] at hslot
        cases hslot
        exact ⟨rest, ht, hshows⟩
    | takeCase hi hc hp hf =>
        obtain ⟨_, ⟨⟩, ht⟩ | ⟨_, ⟨⟩, _⟩ := h.lands hT hi hc hf
        exact ⟨_, ht, hs.pushes hp⟩
    | passSwitch hi hc hp hf =>
        obtain ⟨_, ⟨⟩, _⟩ | ⟨_, ⟨⟩, ht⟩ := h.lands hT hi hc hf
        exact ⟨ctx, ht, (hs.pushes hp).popLoop⟩
    | unwind hi hc hb hclose =>
        cases hf : ctx.failure? with
        | none => exact absurd (hs.openBlocks_eq_zero hf) hb
        | some out =>
            obtain ⟨rfl, hshows⟩ := hs.unwinds hf hclose
            exact ⟨out.2, h.failure hT hf, hshows⟩
  rest := by
    rintro position l l' result ⟨ctx, hT, hs⟩ hr
    cases hr with
    | asleep hi hc hl hz =>
        obtain ⟨c, start, t, rest, rfl, _, hagain⟩ := h.types hT hi hc
        rw [hs.currentLoop?] at hl
        cases hl
        exact ⟨_, hagain _, hs.setLoop _⟩
    | unwound _ _ _ => exact ⟨ctx, hT, hs⟩
    | failed _ => exact ⟨ctx, hT, hs⟩
    | stuck hi hc _ hf =>
        obtain ⟨_, ⟨⟩, _⟩ | ⟨_, ⟨⟩, _⟩ := h.lands hT hi hc hf

/-- The faults of an instruction whose level shows a context of its position. -/
theorem allowed_of_fails {fault : Fault} (h : Typing p T) (hT : T position ctx) (hs : l.Shows ctx)
    (hf : l.Fails p position fault) :
    fault.Allowed (∃ position ctx, T position ctx ∧ jumpStackDepth < ctx.blocks)
      (∃ position ctx, T position ctx ∧ loopSlots < ctx.loops) := by
  cases hf with
  | decode hi _ => exact absurd hi (h.instructionAt_ne_error hT _)
  | unknownSubroutine _ _ _ => exact trivial
  | unknownEvent _ _ _ => exact trivial
  | callStackOverflow _ _ => exact trivial
  | callStackUnderflow hi hc => exact (h.types hT hi hc).elim
  | divisionByZero _ _ => exact trivial
  | @jumpStackOverflow i length hi hc ho =>
      refine ⟨_, _, h.types hT hi hc, Nat.lt_succ_of_le (Nat.le_of_not_lt fun hlt => ?_)⟩
      obtain ⟨l', ho', _⟩ := hs.openBlock? hlt (position + i.width + length.toNat)
      rw [ho] at ho'
      cases ho'
  | jumpStackUnderflow hi hc hb =>
      obtain ⟨target, rest, rfl⟩ := (h.types hT hi rfl).closesBlock hc
      obtain ⟨l', hclose, _⟩ := hs.closeBlock?
      rw [hb] at hclose
      cases hclose
  | @loopOverflow i slot hi hc hp =>
      obtain ⟨next, counter, start, target, ht⟩ := (h.types hT hi rfl).opensLoop hc
      refine ⟨_, _, ht, Nat.lt_succ_of_le (Nat.le_of_not_lt fun hlt => ?_)⟩
      obtain ⟨l', hp'⟩ := CallLevel.exists_pushLoop? (hs.openLoops.symm ▸ hlt) slot
      rw [hp] at hp'
      cases hp'
  | noEnclosingLoop hi hc hl =>
      obtain ⟨target, rest, hb⟩ := (h.types hT hi rfl).needsLoop hc
      obtain ⟨slot, hslot, _⟩ := hs.breakOut hb
      rw [hl] at hslot
      cases hslot
  | unwind hi hc hb hclose =>
      cases hf : ctx.failure? with
      | none => exact absurd (hs.openBlocks_eq_zero hf) hb
      | some out =>
          obtain ⟨m, hm, _⟩ := (hs.unwind hf).2
          rw [hclose] at hm
          cases hm

/-- The faults of a typed program, whatever its threads have gone through before. -/
theorem allowed {it : Interpreter} (h : Typing p T) (hr : it.Reachable (· = p)) {slot : Slot}
    {fault : Fault} (hf : (it.runSlot p slot).result = .error fault) :
    fault.Allowed (∃ position ctx, T position ctx ∧ jumpStackDepth < ctx.blocks)
      (∃ position ctx, T position ctx ∧ loopSlots < ctx.loops) := by
  have hJ : ∀ p', p' = p →
      CallLevel.Invariant p' fun position l => ∃ ctx, T position ctx ∧ l.Shows ctx := by
    rintro p' rfl
    exact h.invariant
  obtain ⟨position, l, l', ⟨ctx, hT, hs⟩, hrest⟩ := hr.exists_fault hJ rfl hf
  generalize hresult : (Except.error fault : Except Fault Outcome) = result at hrest
  cases hrest with
  | asleep _ _ _ _ => cases hresult
  | unwound _ _ _ => cases hresult
  | failed hfails =>
      cases hresult
      exact h.allowed_of_fails hT hs hfails
  | stuck hi hc _ hfind =>
      obtain ⟨_, ⟨⟩, _⟩ | ⟨_, ⟨⟩, _⟩ := h.lands hT hi hc hfind

end Typing

end RoomScript
