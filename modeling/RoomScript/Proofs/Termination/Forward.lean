import RoomScript.Proofs.Dispatch.Levels
import RoomScript.Proofs.Instruction
import RoomScript.Proofs.Level

/-!
# Nothing on a call level lies far behind it

Whatever the code is, the loops open on a call level started one instruction behind the position of the
level at the most, inner loops did not start before outer ones, and a target on the jump stack that was
written after a loop had started lies behind the start of that loop. This also covers the targets above
the top of the jump stack that leaving a loop early would bring back into use.

A loop starts behind the instruction that opens it. That instruction is four bytes wide or more, and a
switch that found no landing leaves the thread on it, hence the four bytes in the statements.
-/
namespace RoomScript

namespace CallLevel

/-- The entry at an index of the jump stack is in use, or will be when a loop that is open inside the
loop with index `i` is left early. -/
def Recalls (l : CallLevel) (i k : Nat) : Prop :=
  k < l.openBlocks ∨ ∃ j, i < j ∧ j < l.openLoops ∧ k < (l.loop j).savedBlocks

structure Forward (position : Nat) (l : CallLevel) : Prop where
  jumpTop : l.jumpTop = l.openBlocks
  openBlocks : l.openBlocks ≤ jumpStackDepth
  openLoops : l.openLoops ≤ loopSlots
  savedBlocks : ∀ i, i < l.openLoops → (l.loop i).savedBlocks ≤ jumpStackDepth
  started : ∀ i, i < l.openLoops → (l.loop i).loopStart ≤ position + 4
  target : ∀ i, i < l.openLoops → (l.loop i).loopStart ≤ (l.loop i).breakTarget
  nested : ∀ i j, i ≤ j → j < l.openLoops → (l.loop i).loopStart ≤ (l.loop j).loopStart
  jumps : ∀ i k, i < l.openLoops → (l.loop i).savedBlocks ≤ k → l.Recalls i k →
    (l.loop i).loopStart < l.jump k + 4

namespace Forward

variable {l l' : CallLevel} {position next target : Nat} {slot : LoopSlot}

theorem fresh (position address : Nat) : Forward position { returnAddress := address } where
  jumpTop := rfl
  openBlocks := Nat.zero_le _
  openLoops := Nat.zero_le _
  savedBlocks _ hi := absurd hi (Nat.not_lt_zero _)
  started _ hi := absurd hi (Nat.not_lt_zero _)
  target _ hi := absurd hi (Nat.not_lt_zero _)
  nested _ _ _ hj := absurd hj (Nat.not_lt_zero _)
  jumps _ _ hi := absurd hi (Nat.not_lt_zero _)

theorem advance (h : Forward position l) (hn : position ≤ next) : Forward next l :=
  { h with
    started := fun i hi => by
      have hs := h.started i hi
      omega }

theorem resync (h : Forward position l) : Forward position l.resyncJumpTop :=
  { h with jumpTop := rfl }

/-- Closing blocks and loops keeps the property: what stays open or can come back into use was so
before, and the position may be any that does not lie before a loop that stays open. -/
theorem lessen (h : Forward position l) (hb : l'.openBlocks ≤ jumpStackDepth)
    (ht : l'.jumpTop = l'.openBlocks) (hl : l'.openLoops ≤ l.openLoops)
    (hloop : ∀ i, i < l'.openLoops → ∃ counter, l'.loop i = { l.loop i with counter })
    (hjump : ∀ k, l'.jump k = l.jump k)
    (hr : ∀ i k, i < l'.openLoops → l'.Recalls i k → l.Recalls i k)
    (hn : ∀ i, i < l'.openLoops → (l.loop i).loopStart ≤ next + 4) : Forward next l' where
  jumpTop := ht
  openBlocks := hb
  openLoops := Nat.le_trans hl h.openLoops
  savedBlocks i hi := by
    obtain ⟨counter, he⟩ := hloop i hi
    rw [he]
    exact h.savedBlocks i (by omega)
  started i hi := by
    obtain ⟨counter, he⟩ := hloop i hi
    rw [he]
    exact hn i hi
  target i hi := by
    obtain ⟨counter, he⟩ := hloop i hi
    rw [he]
    exact h.target i (by omega)
  nested i j hij hj := by
    obtain ⟨c, hi'⟩ := hloop i (by omega)
    obtain ⟨d, hj'⟩ := hloop j hj
    rw [hi', hj']
    exact h.nested i j hij (by omega)
  jumps i k hi hk hrec := by
    obtain ⟨counter, he⟩ := hloop i hi
    rw [he] at hk ⊢
    rw [hjump]
    exact h.jumps i k (by omega) hk (hr i k hi hrec)

/-- What can come back into use is the same or less when no block or loop opens. -/
theorem recalls_of_le {i k : Nat} (hr : l'.Recalls i k) (hb : l'.openBlocks ≤ l.openBlocks)
    (hl : l'.openLoops ≤ l.openLoops)
    (hloop : ∀ j, j < l'.openLoops → (l'.loop j).savedBlocks = (l.loop j).savedBlocks) :
    l.Recalls i k := by
  rcases hr with hlt | ⟨j, hij, hj, hlt⟩
  · exact .inl (by omega)
  · rw [hloop j hj] at hlt
    exact .inr ⟨j, hij, by omega, hlt⟩

theorem opens (h : Forward position l) (ho : l.OpensBlock target l') (ht : position < target) :
    Forward position l' where
  jumpTop := by rw [ho.jumpTop, ho.openBlocks, h.jumpTop]
  openBlocks := by
    have hr := ho.room
    rw [h.jumpTop] at hr
    rw [ho.openBlocks]
    omega
  openLoops := by simpa only [ho.openLoops] using h.openLoops
  savedBlocks := by simpa only [ho.openLoops, ho.loop] using h.savedBlocks
  started := by simpa only [ho.openLoops, ho.loop] using h.started
  target := by simpa only [ho.openLoops, ho.loop] using h.target
  nested := by simpa only [ho.openLoops, ho.loop] using h.nested
  jumps i k hi hk hr := by
    rw [ho.openLoops] at hi
    rw [ho.loop] at hk ⊢
    by_cases he : k = l.jumpTop
    · have hs := h.started i hi
      rw [he, ho.jump_new]
      omega
    · rw [ho.jump_old k he]
      apply h.jumps i k hi hk
      rcases hr with hlt | ⟨j, hij, hj, hlt⟩
      · rw [ho.openBlocks] at hlt
        rw [h.jumpTop] at he
        exact .inl (by omega)
      · rw [ho.openLoops] at hj
        rw [ho.loop] at hlt
        exact .inr ⟨j, hij, hj, hlt⟩

theorem closes (h : Forward position l) (hc : l.ClosesBlock target l') : Forward position l' := by
  have hb := hc.openBlocks
  have hl := hc.openLoops
  refine h.lessen (by have := h.openBlocks; omega) (by rw [hc.jumpTop, hb, h.jumpTop])
    (Nat.le_of_eq hl)
    (fun i _ => ⟨_, hc.loop i⟩) hc.jump (fun i k _ hr => ?_) (fun i hi => h.started i (by omega))
  exact recalls_of_le hr (by omega) (Nat.le_of_eq hl) fun j _ => by rw [hc.loop]

/-- A new loop brings nothing back that is not in use when it opens. -/
theorem recalls_of_pushes {i k : Nat} (hp : l.PushesLoop slot l')
    (hs : slot.savedBlocks = l.openBlocks) (hr : l'.Recalls i k) : l.Recalls i k := by
  rcases hr with hlt | ⟨j, hij, hj, hlt⟩
  · exact .inl (by rwa [hp.openBlocks] at hlt)
  · rcases hp.loop_cases hj with ⟨_, he⟩ | ⟨hj', he⟩
    · rw [he, hs] at hlt
      exact .inl hlt
    · rw [he] at hlt
      exact .inr ⟨j, hij, hj', hlt⟩

theorem pushes (h : Forward position l) (hp : l.PushesLoop slot l')
    (hs : slot.savedBlocks = l.openBlocks) (hstart : position + 4 ≤ slot.loopStart)
    (ht : slot.loopStart ≤ slot.breakTarget) (hn : slot.loopStart ≤ next + 4) :
    Forward next l' := by
  constructor
  case jumpTop => rw [hp.jumpTop, hp.openBlocks, h.jumpTop]
  case openBlocks => simpa only [hp.openBlocks] using h.openBlocks
  case openLoops =>
    rw [hp.openLoops]
    exact hp.room
  case savedBlocks =>
    intro i hi
    rcases hp.loop_cases hi with ⟨_, he⟩ | ⟨hlt, he⟩
    · rw [he, hs]
      exact h.openBlocks
    · rw [he]
      exact h.savedBlocks i hlt
  case started =>
    intro i hi
    rcases hp.loop_cases hi with ⟨_, he⟩ | ⟨hlt, he⟩
    · rw [he]
      exact hn
    · have hi' := h.started i hlt
      rw [he]
      omega
  case target =>
    intro i hi
    rcases hp.loop_cases hi with ⟨_, he⟩ | ⟨hlt, he⟩
    · rw [he]
      exact ht
    · rw [he]
      exact h.target i hlt
  case nested =>
    intro i j hij hj
    rcases hp.loop_cases (Nat.lt_of_le_of_lt hij hj) with ⟨hi', _⟩ | ⟨hilt, hei⟩
    · have hj' := hp.openLoops
      have hij' : i = j := by omega
      exact hij' ▸ Nat.le_refl _
    · have hi := h.started i hilt
      rcases hp.loop_cases hj with ⟨_, hej⟩ | ⟨hjlt, hej⟩
      · rw [hei, hej]
        omega
      · rw [hei, hej]
        exact h.nested i j hij hjlt
  case jumps =>
    intro i k hi hk hr
    rcases hp.loop_cases hi with ⟨hlast, he⟩ | ⟨hlt, he⟩
    · -- No block has been opened since the new loop started.
      have hloops := hp.openLoops
      rw [he, hs] at hk
      rcases hr with hblock | ⟨j, hij, hj, _⟩
      · rw [hp.openBlocks] at hblock
        omega
      · omega
    · rw [he] at hk ⊢
      rw [hp.jump]
      exact h.jumps i k hlt hk (recalls_of_pushes hp hs hr)

theorem pop (h : Forward position l) (hn : position ≤ next) : Forward next l.popLoop := by
  have hle : l.popLoop.openLoops ≤ l.openLoops := Nat.sub_le _ _
  refine h.lessen h.openBlocks h.jumpTop hle (fun i _ => ⟨_, rfl⟩) (fun _ => rfl)
    (fun i k _ hr => recalls_of_le hr (Nat.le_refl _) hle fun _ _ => rfl) (fun i hi => ?_)
  have hs := h.started i (by omega)
  omega

theorem count (h : Forward position l) (hc : l.currentLoop? = some slot) (counter : UInt16) :
    Forward position (l.setLoop { slot with counter }) := by
  obtain ⟨hpos, hle, hslot⟩ := currentLoop?_eq_some_iff.mp hc
  have hloop : ∀ i, ∃ c, (l.setLoop { slot with counter }).loop i = { l.loop i with counter := c } := by
    intro i
    by_cases he : i = l.openLoops - 1
    · rw [he, loop_setLoop_self hpos hle, hslot]
      exact ⟨_, rfl⟩
    · rw [loop_setLoop_of_ne he]
      exact ⟨_, rfl⟩
  refine h.lessen h.openBlocks h.jumpTop (Nat.le_refl _) (fun i _ => hloop i) (fun _ => rfl)
    (fun i k _ hr => recalls_of_le hr (Nat.le_refl _) (Nat.le_refl _) fun j _ => ?_) h.started
  obtain ⟨c, hj⟩ := hloop j
  rw [hj]

/-- The innermost loop may start over: no loop that is open started behind it. -/
theorem restart (h : Forward position l) (hc : l.currentLoop? = some slot) :
    Forward slot.loopStart l := by
  obtain ⟨hpos, _, hslot⟩ := currentLoop?_eq_some_iff.mp hc
  refine { h with started := fun i hi => ?_ }
  have hn := h.nested i (l.openLoops - 1) (by omega) (by omega)
  rw [← hslot] at hn
  omega

theorem breaks (h : Forward position l) (hc : l.currentLoop? = some slot) :
    Forward slot.breakTarget
      { l with openBlocks := slot.savedBlocks }.resyncJumpTop.popLoop := by
  obtain ⟨hpos, _, hslot⟩ := currentLoop?_eq_some_iff.mp hc
  have htop : l.openLoops - 1 < l.openLoops := by omega
  have hsaved := h.savedBlocks _ htop
  have htarget := h.target _ htop
  rw [← hslot] at hsaved htarget
  refine h.lessen hsaved rfl (Nat.sub_le _ _) (fun i _ => ⟨_, rfl⟩) (fun _ => rfl)
    (fun i k hi hr => ?_) (fun i hi => ?_)
  · -- The blocks that come back into use are those that were open when the loop started.
    have hi' : i < l.openLoops - 1 := hi
    rcases hr with hlt | ⟨j, hij, hj, hlt⟩
    · exact .inr ⟨_, hi', htop, hslot ▸ hlt⟩
    · exact .inr ⟨j, hij, Nat.lt_of_lt_of_le hj (Nat.sub_le _ _), hlt⟩
  · have hi' : i < l.openLoops - 1 := hi
    have hn := h.nested i _ (Nat.le_of_lt hi') htop
    rw [← hslot] at hn
    omega

theorem drops (h : Forward position l) (hd : l.DropsLoops l')
    (hn : ∀ i, i < l'.openLoops → (l.loop i).loopStart ≤ next + 4) : Forward next l' := by
  have hb := hd.openBlocks
  refine h.lessen (by have := h.openBlocks; omega) (by rw [hd.jumpTop, hb, h.jumpTop])
    hd.openLoops (fun i _ => ⟨_, hd.loop i⟩) hd.jump (fun i k _ hr => ?_) hn
  exact recalls_of_le hr (Nat.le_of_eq hb) hd.openLoops fun j _ => by rw [hd.loop]

/-- A failed condition resumes behind the starts of all loops that stay open. -/
theorem unwinds (h : Forward position l) (hc : l.ClosesBlock target l') :
    Forward target l'.dropExitedLoops := by
  have hd := l'.dropsLoops
  apply (h.closes hc).drops hd
  intro i hi
  have hkept := hd.kept (by omega)
  have hlast : l'.dropExitedLoops.openLoops - 1 < l.openLoops := by
    have hle := hd.openLoops
    rw [hc.openLoops] at hle
    omega
  have hpos := hc.openBlocks_pos
  rw [hc.loop] at hkept ⊢
  rw [hc.openBlocks] at hkept
  have hjump := h.jumps _ (l.openBlocks - 1) hlast hkept (.inl (by omega))
  have hn := h.nested i _ (by omega : i ≤ l'.dropExitedLoops.openLoops - 1) hlast
  rw [hc.target, h.jumpTop]
  omega

end Forward

/-- The moves of a call level keep everything on it close by. -/
theorem forward_invariant (p : Program) : Invariant p Forward where
  start address _ := .fresh _ address
  resync h := h.resync
  move := by
    intro position target l l' h hm
    cases hm with
    | skip _ => exact h.advance (by omega)
    | pass _ _ => exact h.advance (by omega)
    | @openIf i _ _ _ _ ho =>
        have hw := i.width_pos
        exact (h.opens (opensBlock ho) (by omega)).advance (by omega)
    | openElse _ _ hc => exact (h.closes (closesBlock hc)).advance (by omega)
    | closeIf _ _ hc => exact (h.closes (closesBlock hc)).advance (by omega)
    | sleep _ hc hp =>
        rw [Command.width_of_sleep hc] at hp ⊢
        exact h.pushes (pushesLoop hp) rfl (Nat.le_refl _) (Nat.le_refl _) (by simp [slot])
    | wake _ _ _ _ => exact h.pop (by omega)
    | passFor _ _ => exact h.advance (by omega)
    | openFor _ hc _ hp =>
        rw [Command.width_of_openFor hc] at hp ⊢
        exact h.pushes (pushesLoop hp) rfl (by simp [slot]) (by simp [slot]) (by simp [slot])
    | again _ _ hc _ => exact (h.restart hc).count hc _
    | closeFor _ _ hc _ => exact (h.count hc _).pop (by omega)
    | closeSwitch _ _ _ => exact h.pop (by omega)
    | breakOut _ _ hc => exact h.breaks hc
    | takeCase _ hc hp hf =>
        rw [Command.width_of_switch hc] at hp hf
        have hlt := Landing.lt_position_of_find hf
        exact h.pushes (pushesLoop hp) rfl (Nat.le_refl _) (by simp [slot]) (by
          simp only [slot, Landing.position] at hlt ⊢
          omega)
    | passSwitch _ hc hp hf =>
        rw [Command.width_of_switch hc] at hp hf
        have hlt := Landing.lt_position_of_find hf
        have hpush : Forward position _ :=
          h.pushes (pushesLoop hp) rfl (Nat.le_refl _) (by simp [slot]) (by simp [slot])
        exact hpush.pop (by
          simp only [Landing.position] at hlt
          omega)
    | unwind _ _ _ hc => exact h.unwinds (closesBlock hc)
  rest := by
    intro position l l' result h hr
    cases hr with
    | asleep _ _ hc _ => exact h.count hc _
    | unwound _ _ _ => exact h
    | failed _ => exact h
    | stuck _ hc hp _ =>
        rw [Command.width_of_switch hc] at hp
        exact h.pushes (pushesLoop hp) rfl (Nat.le_refl _) (by simp [slot]) (by simp [slot])

end CallLevel

end RoomScript
