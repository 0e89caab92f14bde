import RoomScript.Proofs.Dispatch.Moves
import RoomScript.Proofs.Level

/-!
# What is open around a statement

The context of a statement lists the if-bodies, loops and switches around it, the innermost first. A call
level shows a context when its two stacks hold the entries of the context, with the number of blocks that
were open when each loop opened. What the entries above the tops are does not matter: in structured code
no open loop refers to them.
-/
namespace RoomScript

/-- A conditional block or a loop slot that is open around a statement. -/
inductive Frame where
  | block (target : Nat)
  | loop (counter : UInt16) (start target : Nat)
  deriving DecidableEq

/-- What is open around a statement, the innermost first. -/
abbrev Context : Type := List Frame

namespace Context

def blocks : Context → Nat
  | [] => 0
  | .block _ :: rest => blocks rest + 1
  | .loop _ _ _ :: rest => blocks rest

def loops : Context → Nat
  | [] => 0
  | .block _ :: rest => loops rest
  | .loop _ _ _ :: rest => loops rest + 1

/-- Where a failed condition goes on, and what is open there. -/
def failure? : Context → Option (Nat × Context)
  | [] => none
  | .block target :: rest => some (target, rest)
  | .loop _ _ _ :: rest => failure? rest

/-- Where a break goes on, and what is open there. -/
def break? : Context → Option (Nat × Context)
  | [] => none
  | .block _ :: rest => break? rest
  | .loop _ _ target :: rest => some (target, rest)

/-- The entries of a context lie on the stacks of a level. -/
def Laid : Context → CallLevel → Prop
  | [], _ => True
  | .block target :: rest, l => l.jump (blocks rest) = target ∧ Laid rest l
  | .loop counter start target :: rest, l =>
    l.loop (loops rest) =
        { counter, breakTarget := target, savedBlocks := blocks rest, loopStart := start } ∧
      Laid rest l

variable {ctx rest : Context} {l l' : CallLevel} {target : Nat}

theorem Laid.congr (h : Laid ctx l) (hj : ∀ k, k < blocks ctx → l'.jump k = l.jump k)
    (hl : ∀ i, i < loops ctx → l'.loop i = l.loop i) : Laid ctx l' := by
  induction ctx with
  | nil => exact trivial
  | cons f rest ih =>
      cases f with
      | block target =>
          unfold blocks at hj
          exact ⟨(hj _ (by omega)).trans h.1, ih h.2 (fun k hk => hj k (by omega)) hl⟩
      | loop counter start target =>
          unfold loops at hl
          exact ⟨(hl _ (by omega)).trans h.1, ih h.2 hj fun i hi => hl i (by omega)⟩

/-- No loop was opened under more blocks than are open. -/
theorem Laid.savedBlocks_le (h : Laid ctx l) {i : Nat} (hi : i < loops ctx) :
    (l.loop i).savedBlocks ≤ blocks ctx := by
  induction ctx with
  | nil => cases hi
  | cons f rest ih =>
      cases f with
      | block target => exact Nat.le_succ_of_le (ih h.2 hi)
      | loop counter start target =>
          by_cases he : i = loops rest
          · rw [he, h.1]
            exact Nat.le_refl _
          · unfold loops at hi
            exact ih h.2 (by omega)

/-- The innermost block, and the loops that were opened in it. -/
theorem Laid.failure (h : Laid ctx l) (hf : failure? ctx = some (target, rest)) :
    blocks ctx = blocks rest + 1 ∧ loops rest ≤ loops ctx ∧ l.jump (blocks rest) = target ∧
      Laid rest l ∧
      ∀ i, loops rest ≤ i → i < loops ctx → (l.loop i).savedBlocks = blocks ctx := by
  induction ctx with
  | nil => cases hf
  | cons f above ih =>
      cases f with
      | block t =>
          cases hf
          exact ⟨rfl, Nat.le_refl _, h.1, h.2, fun i hi hlt => absurd hlt (Nat.not_lt.mpr hi)⟩
      | loop counter start t =>
          obtain ⟨hb, hl, hjump, hlaid, hsaved⟩ := ih h.2 hf
          refine ⟨hb, Nat.le_succ_of_le hl, hjump, hlaid, fun i hi hlt => ?_⟩
          by_cases he : i = loops above
          · rw [he, h.1]
            rfl
          · unfold loops at hlt
            exact hsaved i hi (by omega)

theorem blocks_of_failure?_none (h : failure? ctx = none) : blocks ctx = 0 := by
  induction ctx with
  | nil => rfl
  | cons f rest ih =>
      cases f with
      | block target => cases h
      | loop counter start target => exact ih h

theorem loops_of_break?_none (h : break? ctx = none) : loops ctx = 0 := by
  induction ctx with
  | nil => rfl
  | cons f rest ih =>
      cases f with
      | block target => exact ih h
      | loop counter start target => cases h

/-- The innermost loop, whatever blocks are open in it. -/
theorem Laid.breaks (h : Laid ctx l) (hb : break? ctx = some (target, rest)) :
    loops ctx = loops rest + 1 ∧ Laid rest l ∧ blocks rest ≤ blocks ctx ∧
      (l.loop (loops rest)).breakTarget = target ∧
      (l.loop (loops rest)).savedBlocks = blocks rest := by
  induction ctx with
  | nil => cases hb
  | cons f above ih =>
      cases f with
      | block t =>
          obtain ⟨hl, hlaid, hle, htarget, hsaved⟩ := ih h.2 hb
          exact ⟨hl, hlaid, Nat.le_succ_of_le hle, htarget, hsaved⟩
      | loop counter start t =>
          cases hb
          refine ⟨rfl, h.2, Nat.le_refl _, ?_, ?_⟩
          · rw [h.1]
          · rw [h.1]

end Context

/-- The stacks of a level hold what is open in a context. -/
structure CallLevel.Shows (ctx : Context) (l : CallLevel) : Prop where
  openBlocks : l.openBlocks = ctx.blocks
  jumpTop : l.jumpTop = ctx.blocks
  openLoops : l.openLoops = ctx.loops
  loops_le : ctx.loops ≤ loopSlots
  laid : Context.Laid ctx l

namespace CallLevel.Shows

variable {ctx rest : Context} {l l' : CallLevel} {target popped start : Nat} {counter : UInt16}

theorem fresh (address : Nat) : Shows [] { returnAddress := address } where
  openBlocks := rfl
  jumpTop := rfl
  openLoops := rfl
  loops_le := Nat.zero_le _
  laid := trivial

theorem resync (h : l.Shows ctx) : l.resyncJumpTop.Shows ctx :=
  { h with
    jumpTop := h.openBlocks
    laid := h.laid.congr (fun _ _ => rfl) fun _ _ => rfl }

theorem opens (h : l.Shows ctx) (ho : l.openBlock? target = some l') :
    l'.Shows (.block target :: ctx) := by
  have hb := opensBlock ho
  have htop := h.jumpTop
  exact {
    openBlocks := by rw [hb.openBlocks, h.openBlocks]; rfl
    jumpTop := by rw [hb.jumpTop, htop]; rfl
    openLoops := hb.openLoops.trans h.openLoops
    loops_le := h.loops_le
    laid := ⟨htop ▸ hb.jump_new,
      h.laid.congr (fun k hk => hb.jump_old k (by omega)) fun i _ => hb.loop i⟩ }

theorem openBlock? (h : l.Shows ctx) (hroom : ctx.blocks < jumpStackDepth) (target : Nat) :
    ∃ l', l.openBlock? target = some l' ∧ l'.Shows (.block target :: ctx) := by
  obtain ⟨l', ho⟩ := exists_openBlock? (h.jumpTop.symm ▸ hroom) target
  exact ⟨l', ho, h.opens ho⟩

theorem openBlock?_eq_none (h : l.Shows ctx) (hfull : jumpStackDepth ≤ ctx.blocks) (target : Nat) :
    l.openBlock? target = none :=
  CallLevel.openBlock?_eq_none (h.jumpTop.symm ▸ hfull)

theorem closes (h : l.Shows (.block target :: ctx)) (hc : l.closeBlock? = some (popped, l')) :
    popped = target ∧ l'.Shows ctx := by
  have hb := closesBlock hc
  have hblocks : l.openBlocks = ctx.blocks + 1 := h.openBlocks
  have htop : l.jumpTop = ctx.blocks + 1 := h.jumpTop
  constructor
  · rw [hb.target, htop, Nat.add_sub_cancel]
    exact h.laid.1
  · exact {
      openBlocks := by rw [hb.openBlocks, hblocks, Nat.add_sub_cancel]
      jumpTop := by rw [hb.jumpTop, htop, Nat.add_sub_cancel]
      openLoops := hb.openLoops.trans h.openLoops
      loops_le := h.loops_le
      laid := h.laid.2.congr (fun k _ => hb.jump k) fun i _ => hb.loop i }

theorem closeBlock? (h : l.Shows (.block target :: ctx)) :
    ∃ l', l.closeBlock? = some (target, l') ∧ l'.Shows ctx := by
  have hblocks : l.openBlocks = ctx.blocks + 1 := h.openBlocks
  have htop : l.jumpTop = ctx.blocks + 1 := h.jumpTop
  obtain ⟨popped, l', hc⟩ := @exists_closeBlock? l (by omega) (by omega)
  obtain ⟨rfl, hs⟩ := h.closes hc
  exact ⟨l', hc, hs⟩

theorem pushes (h : l.Shows ctx) (hp : l.pushLoop? (l.slot counter start target) = some l') :
    l'.Shows (.loop counter start target :: ctx) := by
  have hb := pushesLoop hp
  have hloops := h.openLoops
  have hroom := hb.room
  exact {
    openBlocks := hb.openBlocks.trans h.openBlocks
    jumpTop := hb.jumpTop.trans h.jumpTop
    openLoops := by rw [hb.openLoops, hloops]; rfl
    loops_le := by
      unfold Context.loops
      omega
    laid := by
      refine ⟨?_, h.laid.congr (fun k _ => hb.jump k) fun i hi => hb.loop_old i (by omega)⟩
      rw [← hloops, hb.loop_new, CallLevel.slot, h.openBlocks] }

theorem pushLoop? (h : l.Shows ctx) (hroom : ctx.loops < loopSlots) (counter : UInt16)
    (start target : Nat) :
    ∃ l', l.pushLoop? (l.slot counter start target) = some l' ∧
      l'.Shows (.loop counter start target :: ctx) := by
  obtain ⟨l', hp⟩ := exists_pushLoop? (h.openLoops.symm ▸ hroom) (l.slot counter start target)
  exact ⟨l', hp, h.pushes hp⟩

theorem pushLoop?_eq_none (h : l.Shows ctx) (hfull : loopSlots ≤ ctx.loops) (slot : LoopSlot) :
    l.pushLoop? slot = none :=
  CallLevel.pushLoop?_eq_none (h.openLoops.symm ▸ hfull)

theorem currentLoop? (h : l.Shows (.loop counter start target :: ctx)) :
    l.currentLoop? =
      some { counter, breakTarget := target, savedBlocks := ctx.blocks, loopStart := start } := by
  have hloops : l.openLoops = ctx.loops + 1 := h.openLoops
  have hle := h.loops_le
  unfold Context.loops at hle
  refine currentLoop?_eq_some_iff.mpr ⟨by omega, by omega, ?_⟩
  rw [hloops, Nat.add_sub_cancel]
  exact h.laid.1.symm

theorem popLoop (h : l.Shows (.loop counter start target :: ctx)) : l.popLoop.Shows ctx := by
  have hloops : l.openLoops = ctx.loops + 1 := h.openLoops
  have hle := h.loops_le
  unfold Context.loops at hle
  exact {
    openBlocks := h.openBlocks
    jumpTop := h.jumpTop
    openLoops := by rw [openLoops_popLoop, hloops, Nat.add_sub_cancel]
    loops_le := by omega
    laid := h.laid.2.congr (fun _ _ => rfl) fun _ _ => rfl }

/-- The counter of the innermost loop may change. -/
theorem setLoop (h : l.Shows (.loop counter start target :: ctx)) (counter' : UInt16) :
    (l.setLoop
        { counter := counter', breakTarget := target, savedBlocks := ctx.blocks,
          loopStart := start }).Shows (.loop counter' start target :: ctx) := by
  have hloops : l.openLoops = ctx.loops + 1 := h.openLoops
  have hle := h.loops_le
  unfold Context.loops at hle
  exact {
    openBlocks := h.openBlocks
    jumpTop := h.jumpTop
    openLoops := h.openLoops
    loops_le := h.loops_le
    laid := by
      refine ⟨?_, h.laid.2.congr (fun _ _ => rfl) fun i hi => loop_setLoop_of_ne (by omega)⟩
      rw [← Nat.add_sub_cancel (n := ctx.loops) (m := 1), ← hloops]
      exact loop_setLoop_self (by omega) (by omega) }

theorem currentLoop?_eq_none (h : l.Shows ctx) (hb : ctx.break? = none) : l.currentLoop? = none := by
  have hloops := h.openLoops
  rw [Context.loops_of_break?_none hb] at hloops
  exact if_pos hloops

/-- Leaving the innermost loop early gives back what was open around it. -/
theorem breakOut (h : l.Shows ctx) (hb : ctx.break? = some (target, rest)) :
    ∃ slot, l.currentLoop? = some slot ∧ slot.breakTarget = target ∧
      ({ l with openBlocks := slot.savedBlocks }.resyncJumpTop.popLoop).Shows rest := by
  obtain ⟨hloops, hlaid, _, htarget, hsaved⟩ := h.laid.breaks hb
  have hopen := h.openLoops
  have hle := h.loops_le
  refine ⟨l.loop (rest.loops), currentLoop?_eq_some_iff.mpr ⟨by omega, by omega, ?_⟩, htarget, ?_⟩
  · rw [hopen, hloops, Nat.add_sub_cancel]
  · exact {
      openBlocks := hsaved
      jumpTop := hsaved
      openLoops := by
        show l.openLoops - 1 = rest.loops
        omega
      loops_le := by omega
      laid := hlaid.congr (fun _ _ => rfl) fun _ _ => rfl }

theorem openBlocks_eq_zero (h : l.Shows ctx) (hf : ctx.failure? = none) : l.openBlocks = 0 :=
  h.openBlocks.trans (Context.blocks_of_failure?_none hf)

/-- The loops that stay when the innermost block is closed are those outside it. -/
theorem openLoops_dropExitedLoops (h : l.Shows ctx) (hf : ctx.failure? = some (target, rest))
    (hb : l.ClosesBlock popped l') : l'.dropExitedLoops.openLoops = rest.loops := by
  obtain ⟨hblocks, hloops, _, hlaid, hsaved⟩ := h.laid.failure hf
  have hd := l'.dropsLoops
  have hopen : l'.openBlocks = rest.blocks := by
    rw [hb.openBlocks, h.openBlocks, hblocks, Nat.add_sub_cancel]
  have hmax := hd.openLoops
  rw [hb.openLoops, h.openLoops] at hmax
  rcases Nat.lt_trichotomy l'.dropExitedLoops.openLoops (rest.loops) with hlt | he | hgt
  · -- A loop outside the block would have been dropped.
    have hdrop := hd.dropped _ (Nat.le_refl _) (by rw [hb.openLoops, h.openLoops]; omega)
    have hunder := hlaid.savedBlocks_le hlt
    rw [hb.loop, hopen] at hdrop
    omega
  · exact he
  · -- A loop inside the block would have been kept.
    have hkept := hd.kept (by omega)
    rw [hb.loop, hopen, hsaved _ (by omega) (by omega)] at hkept
    omega

/-- A failed condition leaves the innermost block and exactly the loops opened in it. -/
theorem unwinds (h : l.Shows ctx) (hf : ctx.failure? = some (target, rest))
    (hc : l.closeBlock? = some (popped, l')) : popped = target ∧ l'.dropExitedLoops.Shows rest := by
  obtain ⟨hblocks, hloops, hjump, hlaid, _⟩ := h.laid.failure hf
  have htop : l.jumpTop = rest.blocks + 1 := h.jumpTop.trans hblocks
  have hle := h.loops_le
  have hb := closesBlock hc
  have hd := l'.dropsLoops
  constructor
  · rw [hb.target, htop, Nat.add_sub_cancel, hjump]
  · exact {
      openBlocks := by rw [hd.openBlocks, hb.openBlocks, h.openBlocks, hblocks, Nat.add_sub_cancel]
      jumpTop := by rw [hd.jumpTop, hb.jumpTop, htop, Nat.add_sub_cancel]
      openLoops := h.openLoops_dropExitedLoops hf hb
      loops_le := Nat.le_trans hloops hle
      laid := hlaid.congr (fun k _ => (hd.jump k).trans (hb.jump k))
        fun i _ => (hd.loop i).trans (hb.loop i) }

/-- In a block the conditions that fail find it open. -/
theorem unwind (h : l.Shows ctx) (hf : ctx.failure? = some (target, rest)) :
    l.openBlocks ≠ 0 ∧ ∃ l', l.closeBlock? = some (target, l') ∧ l'.dropExitedLoops.Shows rest := by
  have hblocks := (h.laid.failure hf).1
  have hopen := h.openBlocks
  have htop := h.jumpTop
  obtain ⟨popped, l', hc⟩ := @exists_closeBlock? l (by omega) (by omega)
  obtain ⟨rfl, hs⟩ := h.unwinds hf hc
  exact ⟨by omega, l', hc, hs⟩

end CallLevel.Shows

end RoomScript
