import RoomScript.Proofs.Level

/-!
# Call levels of code that starts later

Two call levels correspond when the same blocks and loops are open on them and the second keeps every
position that can still be used `d` bytes later. That covers the entries above the top of the jump stack
which leaving an open loop early would bring back; entries that no open loop refers to may be anything.
-/
namespace RoomScript

namespace CallLevel

/-- The entry at an index of the jump stack is in use, or will be when an open loop is left early. -/
def Uses (l : CallLevel) (k : Nat) : Prop :=
  k < l.openBlocks ∨ ∃ i, i < l.openLoops ∧ k < (l.loop i).savedBlocks

end CallLevel

/-- The slot of a loop in code that starts `d` bytes later. -/
def LoopSlot.shift (d : Nat) (slot : LoopSlot) : LoopSlot :=
  { slot with breakTarget := slot.breakTarget + d, loopStart := slot.loopStart + d }

@[simp] theorem LoopSlot.counter_shift (d : Nat) (slot : LoopSlot) :
    (slot.shift d).counter = slot.counter := rfl

/-- The second level keeps its positions `d` bytes and its return address `e` bytes later. -/
structure CallLevel.Shifted (d e : Nat) (l l' : CallLevel) : Prop where
  jumpTop : l.jumpTop = l.openBlocks
  jumpTop' : l'.jumpTop = l.openBlocks
  openBlocks : l'.openBlocks = l.openBlocks
  openLoops : l'.openLoops = l.openLoops
  returnAddress : l'.returnAddress = l.returnAddress + e
  loop : ∀ i, i < l.openLoops → l'.loop i = (l.loop i).shift d
  jump : ∀ k, l.Uses k → l'.jump k = l.jump k + d

namespace CallLevel.Shifted

variable {d e target : Nat} {l l' : CallLevel} {slot : LoopSlot}

theorem fresh (d e address : Nat) :
    Shifted d e { returnAddress := address } { returnAddress := address + e } where
  jumpTop := rfl
  jumpTop' := rfl
  openBlocks := rfl
  openLoops := rfl
  returnAddress := rfl
  loop _ hi := absurd hi (Nat.not_lt_zero _)
  jump k hk := by
    rcases hk with hlt | ⟨i, hi, _⟩
    · exact absurd hlt (Nat.not_lt_zero _)
    · exact absurd hi (Nat.not_lt_zero _)

theorem resync (h : l.Shifted d e l') : l.resyncJumpTop.Shifted d e l'.resyncJumpTop :=
  { h with
    jumpTop := rfl
    jumpTop' := h.openBlocks }

theorem openBlock? (h : l.Shifted d e l') (target : Nat) :
    Option.Rel (Shifted d e) (l.openBlock? target) (l'.openBlock? (target + d)) := by
  by_cases hroom : l.jumpTop < jumpStackDepth
  · have hroom' : l'.jumpTop < jumpStackDepth := by rwa [h.jumpTop', ← h.jumpTop]
    obtain ⟨m, hm⟩ := exists_openBlock? hroom target
    obtain ⟨m', hm'⟩ := exists_openBlock? hroom' (target + d)
    have ho := opensBlock hm
    have ho' := opensBlock hm'
    rw [hm, hm']
    refine .some {
      jumpTop := by rw [ho.jumpTop, ho.openBlocks, h.jumpTop]
      jumpTop' := by rw [ho'.jumpTop, ho.openBlocks, h.jumpTop']
      openBlocks := by rw [ho'.openBlocks, ho.openBlocks, h.openBlocks]
      openLoops := by rw [ho'.openLoops, ho.openLoops, h.openLoops]
      returnAddress := by rw [ho'.returnAddress, ho.returnAddress, h.returnAddress]
      loop := fun i hi => by
        rw [ho.openLoops] at hi
        rw [ho'.loop, ho.loop, h.loop i hi]
      jump := fun k hk => ?_ }
    by_cases hk' : k = l.openBlocks
    · rw [hk', ← h.jumpTop, ho.jump_new, h.jumpTop, ← h.jumpTop', ho'.jump_new]
    · rw [ho.jump_old k (h.jumpTop.symm ▸ hk'), ho'.jump_old k (h.jumpTop'.symm ▸ hk')]
      apply h.jump
      rcases hk with hlt | ⟨i, hi, hlt⟩
      · rw [ho.openBlocks] at hlt
        exact .inl (by omega)
      · rw [ho.openLoops] at hi
        rw [ho.loop] at hlt
        exact .inr ⟨i, hi, hlt⟩
  · have hroom' : jumpStackDepth ≤ l'.jumpTop := by
      rw [h.jumpTop', ← h.jumpTop]
      exact Nat.le_of_not_lt hroom
    rw [openBlock?_eq_none (Nat.le_of_not_lt hroom), openBlock?_eq_none hroom']
    exact .none

/-- Closing blocks and loops keeps the correspondence: what is still used was used before. -/
theorem lessen {m m' : CallLevel} (h : l.Shifted d e l') (ht : m.jumpTop = m.openBlocks)
    (ht' : m'.jumpTop = m.openBlocks) (hb : m'.openBlocks = m.openBlocks)
    (hl : m'.openLoops = m.openLoops) (hr : m.returnAddress = l.returnAddress)
    (hr' : m'.returnAddress = l'.returnAddress)
    (hloop : ∀ i, i < m.openLoops → m'.loop i = (m.loop i).shift d)
    (hjump : ∀ k, m.jump k = l.jump k) (hjump' : ∀ k, m'.jump k = l'.jump k)
    (huses : ∀ k, m.Uses k → l.Uses k) : m.Shifted d e m' where
  jumpTop := ht
  jumpTop' := ht'
  openBlocks := hb
  openLoops := hl
  returnAddress := by rw [hr', hr, h.returnAddress]
  loop := hloop
  jump k hk := by rw [hjump', hjump, h.jump k (huses k hk)]

theorem closeBlock? (h : l.Shifted d e l') :
    Option.Rel (fun x x' => x'.1 = x.1 + d ∧ Shifted d e x.2 x'.2) l.closeBlock? l'.closeBlock? := by
  by_cases hopen : l.openBlocks = 0
  · have hnone : l.closeBlock? = none := if_pos (.inr hopen)
    have hnone' : l'.closeBlock? = none := if_pos (.inr (h.openBlocks.trans hopen))
    rw [hnone, hnone']
    exact .none
  · have hsome : ∃ t m, l.closeBlock? = some (t, m) :=
      ⟨_, _, if_neg (by rw [h.jumpTop]; omega)⟩
    have hsome' : ∃ t m, l'.closeBlock? = some (t, m) :=
      ⟨_, _, if_neg (by rw [h.jumpTop', h.openBlocks]; omega)⟩
    obtain ⟨t, m, hm⟩ := hsome
    obtain ⟨t', m', hm'⟩ := hsome'
    have hc := closesBlock hm
    have hc' := closesBlock hm'
    rw [hm, hm']
    refine .some ⟨?_, ?_⟩
    · simp only [hc.target, hc'.target, h.jumpTop, h.jumpTop']
      exact h.jump _ (.inl (by omega))
    · refine h.lessen (by rw [hc.jumpTop, hc.openBlocks, h.jumpTop])
        (by rw [hc'.jumpTop, hc.openBlocks, h.jumpTop'])
        (by rw [hc'.openBlocks, hc.openBlocks, h.openBlocks])
        (by rw [hc'.openLoops, hc.openLoops, h.openLoops]) hc.returnAddress hc'.returnAddress
        (fun i hi => ?_) hc.jump hc'.jump (fun k hk => ?_)
      · rw [hc.openLoops] at hi
        rw [hc.loop, hc'.loop, h.loop i hi]
      · rcases hk with hlt | ⟨i, hi, hlt⟩
        · rw [hc.openBlocks] at hlt
          exact .inl (by omega)
        · rw [hc.openLoops] at hi
          rw [hc.loop] at hlt
          exact .inr ⟨i, hi, hlt⟩

theorem pushLoop? (h : l.Shifted d e l') (hs : slot.savedBlocks = l.openBlocks) :
    Option.Rel (Shifted d e) (l.pushLoop? slot) (l'.pushLoop? (slot.shift d)) := by
  by_cases hroom : l.openLoops < loopSlots
  · obtain ⟨m, hm⟩ := exists_pushLoop? hroom slot
    obtain ⟨m', hm'⟩ := exists_pushLoop? (h.openLoops.symm ▸ hroom) (slot.shift d)
    have hp := pushesLoop hm
    have hp' := pushesLoop hm'
    rw [hm, hm']
    refine .some {
      jumpTop := by rw [hp.jumpTop, hp.openBlocks, h.jumpTop]
      jumpTop' := by rw [hp'.jumpTop, hp.openBlocks, h.jumpTop']
      openBlocks := by rw [hp'.openBlocks, hp.openBlocks, h.openBlocks]
      openLoops := by rw [hp'.openLoops, hp.openLoops, h.openLoops]
      returnAddress := by rw [hp'.returnAddress, hp.returnAddress, h.returnAddress]
      loop := fun i hi => ?_
      jump := fun k hk => ?_ }
    · rcases hp.loop_cases hi with ⟨rfl, he⟩ | ⟨hlt, he⟩
      · rw [he, ← h.openLoops, hp'.loop_new]
      · rw [he, hp'.loop_old i (h.openLoops ▸ Nat.ne_of_lt hlt), h.loop i hlt]
    · rw [hp.jump, hp'.jump]
      apply h.jump
      rcases hk with hlt | ⟨i, hi, hlt⟩
      · exact .inl (hp.openBlocks ▸ hlt)
      · rcases hp.loop_cases hi with ⟨_, he⟩ | ⟨hi', he⟩
        · rw [he, hs] at hlt
          exact .inl hlt
        · rw [he] at hlt
          exact .inr ⟨i, hi', hlt⟩
  · rw [pushLoop?_eq_none (Nat.le_of_not_lt hroom),
      pushLoop?_eq_none (h.openLoops.symm ▸ Nat.le_of_not_lt hroom)]
    exact .none

theorem currentLoop? (h : l.Shifted d e l') :
    l'.currentLoop? = l.currentLoop?.map (LoopSlot.shift d) := by
  cases hc : l.currentLoop? with
  | some slot =>
      obtain ⟨hpos, hle, hslot⟩ := currentLoop?_eq_some_iff.mp hc
      refine currentLoop?_eq_some_iff.mpr ⟨h.openLoops.symm ▸ hpos, h.openLoops.symm ▸ hle, ?_⟩
      rw [h.openLoops, h.loop _ (by omega), hslot]
  | none =>
      cases hc' : l'.currentLoop? with
      | none => rfl
      | some slot =>
          obtain ⟨hpos, hle, _⟩ := currentLoop?_eq_some_iff.mp hc'
          rw [h.openLoops] at hpos hle
          have hsome := currentLoop?_eq_some_iff.mpr ⟨hpos, hle, rfl⟩
          rw [hc] at hsome
          cases hsome

/-- The counter of the innermost loop may change. -/
theorem setLoop (h : l.Shifted d e l') (hc : l.currentLoop? = some slot) (counter : UInt16) :
    Shifted d e (l.setLoop { slot with counter })
      (l'.setLoop { slot.shift d with counter }) := by
  obtain ⟨hpos, hle, hslot⟩ := currentLoop?_eq_some_iff.mp hc
  have hself : (l.setLoop { slot with counter }).loop (l.openLoops - 1) = { slot with counter } :=
    loop_setLoop_self hpos hle
  refine h.lessen h.jumpTop h.jumpTop' h.openBlocks h.openLoops rfl rfl (fun i hi => ?_)
    (fun _ => rfl) (fun _ => rfl) (fun k hk => ?_)
  · by_cases he : i = l.openLoops - 1
    · have hself' : (l'.setLoop { slot.shift d with counter }).loop (l'.openLoops - 1) =
          { slot.shift d with counter } :=
        loop_setLoop_self (h.openLoops.symm ▸ hpos) (h.openLoops.symm ▸ hle)
      rw [h.openLoops] at hself'
      rw [he, hself, hself']
      rfl
    · rw [loop_setLoop_of_ne he, loop_setLoop_of_ne (h.openLoops.symm ▸ he), h.loop i hi]
  · rcases hk with hlt | ⟨i, hi, hlt⟩
    · exact .inl hlt
    · by_cases he : i = l.openLoops - 1
      · rw [he, hself, hslot] at hlt
        exact .inr ⟨_, by omega, hlt⟩
      · rw [loop_setLoop_of_ne he] at hlt
        exact .inr ⟨i, hi, hlt⟩

theorem popLoop (h : l.Shifted d e l') : Shifted d e l.popLoop l'.popLoop := by
  refine h.lessen h.jumpTop h.jumpTop' h.openBlocks ?_ rfl rfl (fun i hi => ?_) (fun _ => rfl)
    (fun _ => rfl) (fun k hk => ?_)
  · simp only [openLoops_popLoop, h.openLoops]
  · exact h.loop i (Nat.lt_of_lt_of_le hi (Nat.sub_le _ _))
  · rcases hk with hlt | ⟨i, hi, hlt⟩
    · exact .inl hlt
    · exact .inr ⟨i, Nat.lt_of_lt_of_le hi (Nat.sub_le _ _), hlt⟩

/-- Leaving a loop early brings back the blocks that were open when it opened. -/
theorem breakOut (h : l.Shifted d e l') (hc : l.currentLoop? = some slot) :
    Shifted d e { l with openBlocks := slot.savedBlocks }.resyncJumpTop.popLoop
      { l' with openBlocks := (slot.shift d).savedBlocks }.resyncJumpTop.popLoop := by
  obtain ⟨hpos, _, hslot⟩ := currentLoop?_eq_some_iff.mp hc
  refine h.lessen rfl rfl rfl ?_ rfl rfl (fun i hi => ?_) (fun _ => rfl) (fun _ => rfl)
    (fun k hk => ?_)
  · exact congrArg (· - 1) h.openLoops
  · exact h.loop i (Nat.lt_of_lt_of_le hi (Nat.sub_le _ _))
  · rcases hk with hlt | ⟨i, hi, hlt⟩
    · exact .inr ⟨_, Nat.sub_lt hpos Nat.one_pos, hslot ▸ hlt⟩
    · exact .inr ⟨i, Nat.lt_of_lt_of_le hi (Nat.sub_le _ _), hlt⟩

theorem dropExitedLoops (h : l.Shifted d e l') :
    Shifted d e l.dropExitedLoops l'.dropExitedLoops := by
  have hd := l.dropsLoops
  have hd' := l'.dropsLoops
  have hle := hd.openLoops
  refine h.lessen h.jumpTop h.jumpTop' h.openBlocks ?_ rfl rfl (fun i hi => ?_) (fun _ => rfl)
    (fun _ => rfl) (fun k hk => ?_)
  · simp only [CallLevel.dropExitedLoops, h.openBlocks, h.openLoops]
    exact loopsUnder_congr _ fun i hi => (congrArg LoopSlot.savedBlocks (h.loop i hi) :)
  · exact h.loop i (by omega)
  · rcases hk with hlt | ⟨i, hi, hlt⟩
    · exact .inl hlt
    · exact .inr ⟨i, by omega, hlt⟩

end CallLevel.Shifted

end RoomScript
