import RoomScript.Proofs.Termination.Forward

/-!
# What the moves of a call level raise

A call level is read as five rows of digits. Row `j` belongs to the loop with index `j` when that loop is
open, to the present position when `j` loops are open, and is not used otherwise. A row says for each
number `k` of blocks what the position comes down to when only the outermost `k` blocks are still open:
the lowest of the targets above and of the mark of the row. The mark is the present position, or the
start of the loop; the number of blocks is the one that is open, or the one the loop was opened under.
The last digit of the row of a loop counts the iterations that are over. Every move raises one digit and
lowers none before it.

Marks and targets are doubled, so that the start of a loop lies between the instruction that opens it
and the one behind.
-/
namespace RoomScript

/-- The least of a mark and of the `n` values from index `k` on. -/
def lowest (f : Nat → Nat) (mark k : Nat) : Nat → Nat
  | 0 => mark
  | n + 1 => min (lowest f mark k n) (f (k + n))

theorem le_lowest_iff {f : Nat → Nat} {mark k n v : Nat} :
    v ≤ lowest f mark k n ↔ v ≤ mark ∧ ∀ m, k ≤ m → m < k + n → v ≤ f m := by
  induction n with
  | zero =>
      unfold lowest
      exact ⟨fun h => ⟨h, fun m hk hm => by omega⟩, And.left⟩
  | succ n ih =>
      simp only [lowest, Nat.le_min, ih]
      constructor
      · rintro ⟨⟨hm, hall⟩, hlast⟩
        constructor
        · exact hm
        · intro m hk hlt
          by_cases he : m = k + n
          · rwa [he]
          · exact hall m hk (by omega)
      · rintro ⟨hm, hall⟩
        exact ⟨⟨hm, fun m hk hlt => hall m hk (by omega)⟩, hall _ (by omega) (by omega)⟩

/-- The digit of a row for a number of blocks that stay open. Digits of blocks that are not open are
above all others. -/
def rowDigit (size : Nat) (f : Nat → Nat) (mark blocks k : Nat) : Nat :=
  if k ≤ blocks then min (2 * size + 8) (lowest f mark k (blocks - k)) else 2 * size + 9

section Rows

variable {size mark mark' blocks blocks' k : Nat} {f f' : Nat → Nat}

theorem rowDigit_le (size : Nat) (f : Nat → Nat) (mark blocks k : Nat) :
    rowDigit size f mark blocks k ≤ 2 * size + 9 := by
  unfold rowDigit
  split <;> omega

theorem rowDigit_le_rowDigit (hk : k ≤ blocks)
    (hmark : lowest f mark k (blocks - k) ≤ mark')
    (hf : ∀ m, k ≤ m → m < blocks' → lowest f mark k (blocks - k) ≤ f' m) :
    rowDigit size f mark blocks k ≤ rowDigit size f' mark' blocks' k := by
  by_cases hk' : k ≤ blocks'
  · have hl : lowest f mark k (blocks - k) ≤ lowest f' mark' k (blocks' - k) :=
      le_lowest_iff.mpr ⟨hmark, fun m hm hlt => hf m hm (by omega)⟩
    simp only [rowDigit, hk, hk', if_true]
    omega
  · have hle := rowDigit_le size f mark blocks k
    simp only [rowDigit, hk', if_false] at hle ⊢
    exact hle

/-- A row with the same mark and number of blocks, whose targets are not lower below the mark. -/
theorem rowDigit_kept (hf : ∀ m, m < blocks → f m ≤ f' m ∨ mark ≤ f' m) (k : Nat) :
    rowDigit size f mark blocks k ≤ rowDigit size f' mark blocks k := by
  by_cases hk : k ≤ blocks
  · have hl := le_lowest_iff.mp (Nat.le_refl (lowest f mark k (blocks - k)))
    apply rowDigit_le_rowDigit hk hl.1
    intro m hm hlt
    have hlm := hl.2 m hm (by omega)
    rcases hf m hlt with h | h <;> omega
  · simp [rowDigit, hk]

/-- A row whose mark is raised, whose old targets are kept and whose new ones lie above the mark. -/
theorem rowDigit_ahead (hmark : mark < mark') (hsize : mark < 2 * size + 8)
    (hold : ∀ m, m < blocks → m < blocks' → f m ≤ f' m)
    (hnew : ∀ m, blocks ≤ m → m < blocks' → mark < f' m) :
    (∀ k, k < min blocks blocks' →
      rowDigit size f mark blocks k ≤ rowDigit size f' mark' blocks' k) ∧
    rowDigit size f mark blocks (min blocks blocks') <
      rowDigit size f' mark' blocks' (min blocks blocks') := by
  constructor
  · intro k hk
    have hl := le_lowest_iff.mp (Nat.le_refl (lowest f mark k (blocks - k)))
    apply rowDigit_le_rowDigit (by omega) (by omega)
    intro m hm hlt
    by_cases hb : m < blocks
    · have hlm := hl.2 m hm (by omega)
      have hfm := hold m hb hlt
      omega
    · have hfm := hnew m (by omega) hlt
      omega
  · have hk : min blocks blocks' ≤ blocks := Nat.min_le_left _ _
    have hk' : min blocks blocks' ≤ blocks' := Nat.min_le_right _ _
    have hl := (le_lowest_iff.mp
      (Nat.le_refl (lowest f mark (min blocks blocks') (blocks - min blocks blocks')))).1
    have hl' : mark + 1 ≤ lowest f' mark' (min blocks blocks') (blocks' - min blocks blocks') :=
      le_lowest_iff.mpr ⟨hmark, fun m hm hlt => hnew m (by omega) (by omega)⟩
    simp only [rowDigit, hk, hk', if_true]
    omega

/-- A row that loses blocks and comes down to the target of the outermost block it loses. -/
theorem rowDigit_fall (size : Nat) (f : Nat → Nat) (mark : Nat) (hb : blocks' < blocks) :
    (∀ k, k < blocks' + 1 →
      rowDigit size f mark blocks k ≤ rowDigit size f (f blocks') blocks' k) ∧
    rowDigit size f mark blocks (blocks' + 1) < rowDigit size f (f blocks') blocks' (blocks' + 1) := by
  constructor
  · intro k hk
    have hl := le_lowest_iff.mp (Nat.le_refl (lowest f mark k (blocks - k)))
    exact rowDigit_le_rowDigit (by omega) (hl.2 _ (by omega) (by omega)) fun m hm hlt =>
      hl.2 m hm (by omega)
  · simp only [rowDigit, hb, Nat.succ_le_of_lt, if_true, Nat.not_succ_le_self, if_false]
    omega

end Rows

namespace CallLevel

/-- How many blocks the row with index `j` is about. -/
def rowBlocks (l : CallLevel) (j : Nat) : Nat :=
  if j < l.openLoops then (l.loop j).savedBlocks else l.openBlocks

/-- The mark of the row with index `j`. -/
def rowMark (position : Nat) (l : CallLevel) (j : Nat) : Nat :=
  if j < l.openLoops then 2 * (l.loop j).loopStart + 1 else 2 * position + 8

def jumpMark (l : CallLevel) (k : Nat) : Nat := 2 * l.jump k + 8

/-- The iterations of the loop with index `j` that are over, if it is open. -/
def rounds (l : CallLevel) (j : Nat) : Nat :=
  if j < l.openLoops then 65536 - (l.loop j).counter.toNat else 0

/-- Digit `k` of row `j`; the one behind the digits of the blocks counts iterations. -/
def digit (size position : Nat) (l : CallLevel) (j k : Nat) : Nat :=
  if l.openLoops < j then 0
  else if k ≤ jumpStackDepth then rowDigit size l.jumpMark (l.rowMark position j) (l.rowBlocks j) k
  else l.rounds j

/-- One digit is raised and none before it is lowered. -/
def Raises (size position : Nat) (l : CallLevel) (next : Nat) (l' : CallLevel) : Prop :=
  ∃ j k, j ≤ loopSlots ∧ k ≤ jumpStackDepth + 1 ∧
    (∀ i m, i < j → l.digit size position i m ≤ l'.digit size next i m) ∧
    (∀ m, m < k → l.digit size position j m ≤ l'.digit size next j m) ∧
    l.digit size position j k < l'.digit size next j k

section Raising

variable {size position next j k target : Nat} {l l' : CallLevel} {slot : LoopSlot}

/-- The rows of a loop that stays open as it is are not lowered, as long as a target that changes goes
behind the start of the loop. -/
theorem digit_kept (hi : j < l.openLoops) (hi' : j < l'.openLoops) (hloop : l'.loop j = l.loop j)
    (hjump : ∀ m, l'.jump m = l.jump m ∨ (l.loop j).loopStart < l'.jump m + 4) (m : Nat) :
    l.digit size position j m ≤ l'.digit size next j m := by
  have hn : ¬l.openLoops < j := by omega
  have hn' : ¬l'.openLoops < j := by omega
  simp only [digit, hn, hn', if_false, rounds, rowMark, rowBlocks, hi, hi', if_true, hloop]
  split
  · refine rowDigit_kept (fun k _ => ?_) m
    unfold jumpMark
    rcases hjump k with h | h <;> omega
  · exact Nat.le_refl _

theorem raises_row (hj : j ≤ l.openLoops) (hj' : j ≤ l'.openLoops) (hle : j ≤ loopSlots)
    (hk : k ≤ jumpStackDepth)
    (hrows : ∀ i m, i < j → l.digit size position i m ≤ l'.digit size next i m)
    (hbefore : ∀ m, m < k →
      rowDigit size l.jumpMark (l.rowMark position j) (l.rowBlocks j) m ≤
        rowDigit size l'.jumpMark (l'.rowMark next j) (l'.rowBlocks j) m)
    (hat : rowDigit size l.jumpMark (l.rowMark position j) (l.rowBlocks j) k <
      rowDigit size l'.jumpMark (l'.rowMark next j) (l'.rowBlocks j) k) :
    l.Raises size position next l' := by
  have hn : ¬l.openLoops < j := by omega
  have hn' : ¬l'.openLoops < j := by omega
  refine ⟨j, k, hle, by omega, hrows, fun m hm => ?_, ?_⟩
  · have hm' : m ≤ jumpStackDepth := by omega
    simpa only [digit, hn, hn', hm', if_false, if_true] using hbefore m hm
  · simpa only [digit, hn, hn', hk, if_false, if_true] using hat

namespace Forward

theorem rowBlocks_le (h : Forward position l) (j : Nat) : l.rowBlocks j ≤ jumpStackDepth := by
  unfold rowBlocks
  split
  · rename_i hj
    exact h.savedBlocks j hj
  · exact h.openBlocks

theorem rowMark_lt (h : Forward position l) (hs : position < size) (j : Nat) :
    l.rowMark position j < 2 * size + 8 := by
  unfold rowMark
  split
  · rename_i hj
    have hst := h.started j hj
    omega
  · omega

/-- The first row that changes goes ahead: its mark is raised, and the targets it gains lie behind the
old mark. -/
theorem raises_ahead (h : Forward position l) (hs : position < size) (hj : j ≤ l.openLoops)
    (hj' : j ≤ l'.openLoops) (hloop : ∀ i, i < j → l'.loop i = l.loop i)
    (hmark : l.rowMark position j < l'.rowMark next j)
    (hold : ∀ m, m < l.rowBlocks j → l'.jump m = l.jump m)
    (hnew : ∀ m, l.rowBlocks j ≤ m → m < l'.rowBlocks j → l.rowMark position j < l'.jumpMark m)
    (hjump : ∀ m, l'.jump m = l.jump m ∨ position < l'.jump m) :
    l.Raises size position next l' := by
  have hahead := rowDigit_ahead hmark (h.rowMark_lt hs j)
    (fun m hm _ => by
      simp only [jumpMark, hold m hm]
      exact Nat.le_refl _) hnew
  have hmin : min (l.rowBlocks j) (l'.rowBlocks j) ≤ jumpStackDepth :=
    Nat.le_trans (Nat.min_le_left _ _) (h.rowBlocks_le j)
  refine raises_row hj hj' (Nat.le_trans hj h.openLoops) hmin (fun i m hi => ?_) hahead.1 hahead.2
  have hst := h.started i (by omega)
  refine digit_kept (by omega) (by omega) (hloop i hi) (fun k => ?_) m
  rcases hjump k with hk | hk
  · exact .inl hk
  · exact .inr (by omega)

/-- The position goes on while blocks close or stay open and the loops stay open. -/
theorem raises_on (h : Forward position l) (hs : position < size) (hn : position < next)
    (hb : l'.openBlocks ≤ l.openBlocks) (hl : l'.openLoops = l.openLoops)
    (hloop : ∀ i, i < l.openLoops → l'.loop i = l.loop i) (hjump : ∀ m, l'.jump m = l.jump m) :
    l.Raises size position next l' := by
  refine h.raises_ahead hs (Nat.le_refl _) (Nat.le_of_eq hl.symm) hloop ?_ (fun m _ => hjump m)
    (fun m hm hlt => ?_) (fun m => .inl (hjump m))
  · simp only [rowMark, hl, Nat.lt_irrefl, if_false]
    omega
  · simp only [rowBlocks, hl, Nat.lt_irrefl, if_false] at hm hlt
    omega

theorem raises_open (h : Forward position l) (hs : position < size) (hn : position < next)
    (ho : l.OpensBlock target l') (ht : position < target) : l.Raises size position next l' := by
  have hjump : ∀ m, l'.jump m = l.jump m ∨ position < l'.jump m := by
    intro m
    by_cases he : m = l.jumpTop
    · rw [he, ho.jump_new]
      exact .inr ht
    · exact .inl (ho.jump_old m he)
  refine h.raises_ahead hs (Nat.le_refl _) (Nat.le_of_eq ho.openLoops.symm)
    (fun i _ => ho.loop i) ?_ (fun m hm => ho.jump_old m ?_) (fun m hm hlt => ?_) hjump
  · simp only [rowMark, ho.openLoops, Nat.lt_irrefl, if_false]
    omega
  · simp only [rowBlocks, Nat.lt_irrefl, if_false] at hm
    rw [h.jumpTop]
    omega
  · simp only [rowBlocks, ho.openLoops, ho.openBlocks, Nat.lt_irrefl, if_false] at hm hlt
    have he : m = l.jumpTop := by
      rw [h.jumpTop]
      omega
    simp only [rowMark, Nat.lt_irrefl, if_false, jumpMark, he, ho.jump_new]
    omega

theorem raises_push (h : Forward position l) (hs : position < size)
    (hp : l.PushesLoop slot l') (hsaved : slot.savedBlocks = l.openBlocks)
    (hstart : position + 4 ≤ slot.loopStart) : l.Raises size position next l' := by
  have hlt : l.openLoops < l'.openLoops := by
    have hl := hp.openLoops
    omega
  refine h.raises_ahead hs (Nat.le_refl _) (Nat.le_of_lt hlt)
    (fun i hi => hp.loop_old i (Nat.ne_of_lt hi)) ?_ (fun m _ => hp.jump m) (fun m hm hlt' => ?_)
    (fun m => .inl (hp.jump m))
  · simp only [rowMark, hlt, if_true, Nat.lt_irrefl, if_false, hp.loop_new]
    omega
  · simp only [rowBlocks, hlt, if_true, Nat.lt_irrefl, if_false, hp.loop_new, hsaved] at hm hlt'
    omega

/-- A loop is left for a position behind its start. -/
theorem raises_pop (h : Forward position l) (hs : position < size) (hpos : 0 < l.openLoops)
    (hl : l'.openLoops = l.openLoops - 1) (hloop : ∀ i, i < l'.openLoops → l'.loop i = l.loop i)
    (hjump : ∀ m, l'.jump m = l.jump m)
    (hb : l'.openBlocks ≤ l.openBlocks ∨
      l'.openBlocks = (l.loop (l.openLoops - 1)).savedBlocks)
    (hn : (l.loop (l.openLoops - 1)).loopStart < next + 4) : l.Raises size position next l' := by
  have htop : l.openLoops - 1 < l.openLoops := by omega
  refine h.raises_ahead hs (Nat.sub_le _ 1) (Nat.le_of_eq hl.symm)
    (fun i hi => hloop i (by omega)) ?_ (fun m _ => hjump m) (fun m hm hlt => ?_)
    (fun m => .inl (hjump m))
  · simp only [rowMark, hl, htop, if_true, Nat.lt_irrefl, if_false]
    omega
  · simp only [rowBlocks, hl, htop, if_true, Nat.lt_irrefl, if_false] at hm hlt
    rcases hb with hb | hb
    · have hj := h.jumps _ m htop hm (.inl (by omega))
      simp only [rowMark, htop, if_true, jumpMark, hjump]
      omega
    · omega

/-- A loop starts its next iteration. -/
theorem raises_again (hc : l.currentLoop? = some slot)
    (hn : 1 < slot.counter) :
    l.Raises size position next (l.setLoop { slot with counter := slot.counter - 1 }) := by
  obtain ⟨hpos, hle, hslot⟩ := currentLoop?_eq_some_iff.mp hc
  have htop : l.openLoops - 1 < l.openLoops := by omega
  have hn9 : ¬jumpStackDepth + 1 ≤ jumpStackDepth := by omega
  have hno : ¬l.openLoops < l.openLoops - 1 := by omega
  have hself : (l.setLoop { slot with counter := slot.counter - 1 }).loop (l.openLoops - 1) =
      { slot with counter := slot.counter - 1 } := loop_setLoop_self hpos hle
  refine ⟨l.openLoops - 1, jumpStackDepth + 1, by omega, Nat.le_refl _, fun i m hi => ?_,
    fun m hm => ?_, ?_⟩
  · exact digit_kept (by omega) (by simp only [openLoops_setLoop]; omega)
      (loop_setLoop_of_ne (by omega)) (fun _ => .inl rfl) m
  · have hm' : m ≤ jumpStackDepth := by omega
    simp only [digit, openLoops_setLoop, hno, if_false, hm', if_true, rowMark, rowBlocks, htop, hself]
    rw [← hslot]
    exact Nat.le_refl _
  · simp only [digit, openLoops_setLoop, hno, if_false, hn9, rounds, htop, if_true, hself]
    rw [← hslot]
    have h1 : 1 < slot.counter.toNat := hn
    have h2 := slot.counter.toNat_lt
    have h3 : (slot.counter - 1).toNat = slot.counter.toNat - 1 := by
      rw [UInt16.toNat_sub_of_le]
      · rfl
      · exact UInt16.le_of_lt hn
    omega

/-- A failed condition leaves the innermost block and the loops opened in it. -/
theorem raises_unwind (h : Forward position l) (hc : l.ClosesBlock target l') :
    l.Raises size position target l'.dropExitedLoops := by
  have hd := l'.dropsLoops
  have hloops := hd.openLoops
  have hblocks := hd.openBlocks
  rw [hc.openLoops] at hloops
  rw [hc.openBlocks] at hblocks
  have hpos := hc.openBlocks_pos
  have hjump : ∀ m, l'.dropExitedLoops.jump m = l.jump m := fun m => (hd.jump m).trans (hc.jump m)
  have hmarks : l'.dropExitedLoops.jumpMark = l.jumpMark := by
    funext m
    simp only [jumpMark, hjump]
  have hrow : l.openBlocks - 1 < l.rowBlocks l'.dropExitedLoops.openLoops := by
    unfold rowBlocks
    split
    · rename_i hlt
      have hdrop := hd.dropped _ (Nat.le_refl _) (hc.openLoops.symm ▸ hlt)
      rwa [hc.loop, hc.openBlocks] at hdrop
    · omega
  have hfall := rowDigit_fall size l.jumpMark
    (l.rowMark position l'.dropExitedLoops.openLoops) hrow
  have hle := h.rowBlocks_le l'.dropExitedLoops.openLoops
  have hmark : l'.dropExitedLoops.rowMark target l'.dropExitedLoops.openLoops =
      l.jumpMark (l.openBlocks - 1) := by
    simp only [rowMark, Nat.lt_irrefl, if_false, jumpMark, hc.target, h.jumpTop]
  have hrow' : l'.dropExitedLoops.rowBlocks l'.dropExitedLoops.openLoops = l.openBlocks - 1 := by
    simp only [rowBlocks, Nat.lt_irrefl, if_false, hblocks]
  refine raises_row (k := l.openBlocks - 1 + 1) hloops (Nat.le_refl _)
    (Nat.le_trans hloops h.openLoops) (by omega) (fun i m hi => ?_) ?_ ?_
  · exact digit_kept (by omega) hi ((hd.loop i).trans (hc.loop i)) (fun k => .inl (hjump k)) m
  · rw [hmarks, hmark, hrow']
    exact hfall.1
  · rw [hmarks, hmark, hrow']
    exact hfall.2

end Forward

/-- Every move of a call level raises a digit. -/
theorem Moves.raises {p : Program} (hm : l.Moves p position next l') (h : Forward position l)
    (hs : position < p.code.size) : l.Raises p.code.size position next l' := by
  cases hm with
  | skip _ =>
      exact h.raises_on hs (Nat.lt_succ_self _) (Nat.le_refl _) rfl (fun _ _ => rfl) fun _ => rfl
  | @pass i _ _ =>
      have hw := i.width_pos
      exact h.raises_on hs (by omega) (Nat.le_refl _) rfl (fun _ _ => rfl) fun _ => rfl
  | @openIf i _ _ _ _ ho =>
      have hw := i.width_pos
      exact h.raises_open hs (by omega) (opensBlock ho) (by omega)
  | @openElse i _ _ _ _ _ hc =>
      have hw := i.width_pos
      have hb := closesBlock hc
      exact h.raises_on hs (by omega) (by rw [hb.openBlocks]; omega) hb.openLoops
        (fun i _ => hb.loop i) hb.jump
  | @closeIf i _ _ _ _ hc =>
      have hw := i.width_pos
      have hb := closesBlock hc
      exact h.raises_on hs (by omega) (by rw [hb.openBlocks]; omega) hb.openLoops
        (fun i _ => hb.loop i) hb.jump
  | sleep _ hc hp =>
      rw [Command.width_of_sleep hc] at hp ⊢
      exact h.raises_push hs (pushesLoop hp) rfl (Nat.le_refl _)
  | @wake i _ _ _ hc _ =>
      have hw := i.width_pos
      obtain ⟨hpos, _, _⟩ := currentLoop?_eq_some_iff.mp hc
      have hst := h.started (l.openLoops - 1) (by omega)
      exact h.raises_pop hs hpos rfl (fun _ _ => rfl) (fun _ => rfl) (.inl (Nat.le_refl _)) (by omega)
  | @passFor i _ _ _ =>
      have hw := i.width_pos
      exact h.raises_on hs (by omega) (Nat.le_refl _) rfl (fun _ _ => rfl) fun _ => rfl
  | openFor _ hc _ hp =>
      rw [Command.width_of_openFor hc] at hp ⊢
      exact h.raises_push hs (pushesLoop hp) rfl (by simp [CallLevel.slot])
  | again _ _ hc hn => exact Forward.raises_again hc hn
  | @closeFor i slot _ _ hc _ =>
      have hw := i.width_pos
      obtain ⟨hpos, _, _⟩ := currentLoop?_eq_some_iff.mp hc
      have hst := h.started (l.openLoops - 1) (by omega)
      exact h.raises_pop hs hpos rfl (fun i hi => loop_setLoop_of_ne (Nat.ne_of_lt hi))
        (fun _ => rfl) (.inl (Nat.le_refl _)) (by omega)
  | @closeSwitch i _ _ _ hc =>
      have hw := i.width_pos
      obtain ⟨hpos, _, _⟩ := currentLoop?_eq_some_iff.mp hc
      have hst := h.started (l.openLoops - 1) (by omega)
      exact h.raises_pop hs hpos rfl (fun _ _ => rfl) (fun _ => rfl) (.inl (Nat.le_refl _)) (by omega)
  | breakOut _ _ hc =>
      obtain ⟨hpos, _, hslot⟩ := currentLoop?_eq_some_iff.mp hc
      have ht := h.target (l.openLoops - 1) (by omega)
      rw [← hslot] at ht
      exact h.raises_pop hs hpos rfl (fun _ _ => rfl) (fun _ => rfl)
        (.inr (congrArg LoopSlot.savedBlocks hslot)) (by rw [← hslot]; omega)
  | takeCase _ hc hp _ =>
      rw [Command.width_of_switch hc] at hp
      exact h.raises_push hs (pushesLoop hp) rfl (Nat.le_refl _)
  | passSwitch _ hc hp hf =>
      have hlt := Landing.lt_position_of_find hf
      have hb := pushesLoop hp
      simp only [Landing.position] at hlt
      refine h.raises_on hs (by omega) (Nat.le_of_eq hb.openBlocks) ?_
        (fun i hi => hb.loop_old i (Nat.ne_of_lt hi)) hb.jump
      rw [openLoops_popLoop, hb.openLoops]
      rfl
  | unwind _ _ _ hc => exact h.raises_unwind (closesBlock hc)

end Raising

end CallLevel

end RoomScript
