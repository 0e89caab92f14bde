import RoomScript.Thread.Level

/-!
# The stacks of a call level

A call level keeps its blocks and loops in vectors of fixed size, of which only the entries below the
counts are in use. Here both are read by number, with a default where there is no entry, and each
operation of a level is told by what it does to the counts and to the entries.
-/
namespace RoomScript

namespace CallLevel

/-- The target kept at an index of the jump stack, in use or not. -/
def jump (l : CallLevel) (k : Nat) : Nat := l.jumpStack[k]?.getD 0

/-- The loop slot with an index, open or not. -/
def loop (l : CallLevel) (i : Nat) : LoopSlot := l.loops[i]?.getD {}

variable {l l' : CallLevel} {slot : LoopSlot} {target : Nat}

/-- What opening a conditional block does. -/
structure OpensBlock (l : CallLevel) (target : Nat) (l' : CallLevel) : Prop where
  room : l.jumpTop < jumpStackDepth
  openBlocks : l'.openBlocks = l.openBlocks + 1
  jumpTop : l'.jumpTop = l.jumpTop + 1
  openLoops : l'.openLoops = l.openLoops
  returnAddress : l'.returnAddress = l.returnAddress
  loop : ∀ i, l'.loop i = l.loop i
  jump_new : l'.jump l.jumpTop = target
  jump_old : ∀ k, k ≠ l.jumpTop → l'.jump k = l.jump k

/-- What closing the innermost conditional block does; the target stays in its entry. -/
structure ClosesBlock (l : CallLevel) (target : Nat) (l' : CallLevel) : Prop where
  jumpTop_pos : 0 < l.jumpTop
  openBlocks_pos : 0 < l.openBlocks
  target : target = l.jump (l.jumpTop - 1)
  openBlocks : l'.openBlocks = l.openBlocks - 1
  jumpTop : l'.jumpTop = l.jumpTop - 1
  openLoops : l'.openLoops = l.openLoops
  returnAddress : l'.returnAddress = l.returnAddress
  loop : ∀ i, l'.loop i = l.loop i
  jump : ∀ k, l'.jump k = l.jump k

/-- What opening a loop does. -/
structure PushesLoop (l : CallLevel) (slot : LoopSlot) (l' : CallLevel) : Prop where
  room : l.openLoops < loopSlots
  openBlocks : l'.openBlocks = l.openBlocks
  jumpTop : l'.jumpTop = l.jumpTop
  openLoops : l'.openLoops = l.openLoops + 1
  returnAddress : l'.returnAddress = l.returnAddress
  loop_new : l'.loop l.openLoops = slot
  loop_old : ∀ i, i ≠ l.openLoops → l'.loop i = l.loop i
  jump : ∀ k, l'.jump k = l.jump k

theorem opensBlock (h : l.openBlock? target = some l') : l.OpensBlock target l' := by
  unfold openBlock? at h
  split at h
  · rename_i hroom
    cases h
    exact {
      room := hroom
      openBlocks := rfl
      jumpTop := rfl
      openLoops := rfl
      returnAddress := rfl
      loop := fun _ => rfl
      jump_new := by simp [jump, hroom]
      jump_old := fun k hk => by simp [jump, hk.symm] }
  · cases h

theorem openBlock?_eq_none (h : jumpStackDepth ≤ l.jumpTop) : l.openBlock? target = none :=
  dif_neg (Nat.not_lt.mpr h)

theorem full_of_openBlock? (h : l.openBlock? target = none) : jumpStackDepth ≤ l.jumpTop := by
  unfold openBlock? at h
  split at h
  · cases h
  · exact Nat.not_lt.mp ‹_›

theorem exists_openBlock? (h : l.jumpTop < jumpStackDepth) (target : Nat) :
    ∃ l', l.openBlock? target = some l' := ⟨_, dif_pos h⟩

theorem closesBlock (h : l.closeBlock? = some (target, l')) : l.ClosesBlock target l' := by
  unfold closeBlock? at h
  split at h
  · cases h
  · cases h
    exact {
      jumpTop_pos := by omega
      openBlocks_pos := by omega
      target := rfl
      openBlocks := rfl
      jumpTop := rfl
      openLoops := rfl
      returnAddress := rfl
      loop := fun _ => rfl
      jump := fun _ => rfl }

theorem exists_closeBlock? (ht : 0 < l.jumpTop) (ho : 0 < l.openBlocks) :
    ∃ target l', l.closeBlock? = some (target, l') := ⟨_, _, if_neg (by omega)⟩

theorem pushesLoop (h : l.pushLoop? slot = some l') : l.PushesLoop slot l' := by
  unfold pushLoop? at h
  split at h
  · rename_i hroom
    cases h
    exact {
      room := hroom
      openBlocks := rfl
      jumpTop := rfl
      openLoops := rfl
      returnAddress := rfl
      loop_new := by simp [loop, hroom]
      loop_old := fun i hi => by simp [loop, hi.symm]
      jump := fun _ => rfl }
  · cases h

/-- After a loop has been opened, an open loop is that one or was open before. -/
theorem PushesLoop.loop_cases (h : l.PushesLoop slot l') {i : Nat} (hi : i < l'.openLoops) :
    i = l.openLoops ∧ l'.loop i = slot ∨ i < l.openLoops ∧ l'.loop i = l.loop i := by
  rw [h.openLoops] at hi
  rcases Nat.lt_succ_iff_lt_or_eq.mp hi with hlt | rfl
  · exact .inr ⟨hlt, h.loop_old i (Nat.ne_of_lt hlt)⟩
  · exact .inl ⟨rfl, h.loop_new⟩

theorem pushLoop?_eq_none (h : loopSlots ≤ l.openLoops) : l.pushLoop? slot = none :=
  dif_neg (Nat.not_lt.mpr h)

theorem full_of_pushLoop? (h : l.pushLoop? slot = none) : loopSlots ≤ l.openLoops := by
  unfold pushLoop? at h
  split at h
  · cases h
  · exact Nat.not_lt.mp ‹_›

theorem exists_pushLoop? (h : l.openLoops < loopSlots) (slot : LoopSlot) :
    ∃ l', l.pushLoop? slot = some l' := ⟨_, dif_pos h⟩

/-- The innermost open loop is the one below the count. -/
theorem currentLoop?_eq_some_iff :
    l.currentLoop? = some slot ↔
      0 < l.openLoops ∧ l.openLoops ≤ loopSlots ∧ slot = l.loop (l.openLoops - 1) := by
  simp only [currentLoop?, loop]
  split
  · simp_all
  · by_cases hb : l.openLoops - 1 < loopSlots
    · rw [Vector.getElem?_eq_getElem hb]
      constructor
      · intro hs
        exact ⟨by omega, by omega, (Option.some.inj hs).symm⟩
      · rintro ⟨_, _, hs⟩
        exact congrArg some hs.symm
    · rw [Vector.getElem?_eq_none (by omega)]
      constructor
      · intro hs
        cases hs
      · rintro ⟨_, hle, _⟩
        omega

@[simp] theorem jump_setLoop (k : Nat) : (l.setLoop slot).jump k = l.jump k := rfl

@[simp] theorem openLoops_setLoop : (l.setLoop slot).openLoops = l.openLoops := rfl

@[simp] theorem openBlocks_setLoop : (l.setLoop slot).openBlocks = l.openBlocks := rfl

@[simp] theorem jumpTop_setLoop : (l.setLoop slot).jumpTop = l.jumpTop := rfl

theorem loop_setLoop_self (h : 0 < l.openLoops) (hb : l.openLoops ≤ loopSlots) :
    (l.setLoop slot).loop (l.openLoops - 1) = slot := by
  have hlt : l.openLoops - 1 < loopSlots := by omega
  simp [loop, setLoop, Vector.getElem?_setIfInBounds_self_of_lt hlt]

theorem loop_setLoop_of_ne {i : Nat} (h : i ≠ l.openLoops - 1) :
    (l.setLoop slot).loop i = l.loop i := by
  simp only [loop, setLoop, Vector.getElem?_setIfInBounds_ne h.symm]

@[simp] theorem jump_popLoop (k : Nat) : l.popLoop.jump k = l.jump k := rfl

@[simp] theorem loop_popLoop (i : Nat) : l.popLoop.loop i = l.loop i := rfl

@[simp] theorem openLoops_popLoop : l.popLoop.openLoops = l.openLoops - 1 := rfl

@[simp] theorem openBlocks_popLoop : l.popLoop.openBlocks = l.openBlocks := rfl

@[simp] theorem jumpTop_popLoop : l.popLoop.jumpTop = l.jumpTop := rfl

/-- What dropping exited loops does: the loops that stay are the outermost ones up to the last that
was opened under no more blocks than are open. -/
structure DropsLoops (l l' : CallLevel) : Prop where
  openBlocks : l'.openBlocks = l.openBlocks
  jumpTop : l'.jumpTop = l.jumpTop
  openLoops : l'.openLoops ≤ l.openLoops
  returnAddress : l'.returnAddress = l.returnAddress
  loop : ∀ i, l'.loop i = l.loop i
  jump : ∀ k, l'.jump k = l.jump k
  dropped : ∀ i, l'.openLoops ≤ i → i < l.openLoops → l.openBlocks < (l.loop i).savedBlocks
  kept : 0 < l'.openLoops → (l.loop (l'.openLoops - 1)).savedBlocks ≤ l.openBlocks

/-- Which loops are dropped depends on the open ones alone. -/
theorem loopsUnder_congr {loops loops' : Vector LoopSlot loopSlots} {n : Nat} (blocks : Nat)
    (h : ∀ i, i < n → (loops'[i]?.getD {}).savedBlocks = (loops[i]?.getD {}).savedBlocks) :
    loopsUnder loops' blocks n = loopsUnder loops blocks n := by
  induction n with
  | zero => rfl
  | succ n ih =>
      simp only [loopsUnder, h n (Nat.lt_succ_self n), ih fun i hi => h i (by omega)]

theorem loopsUnder_spec (l : CallLevel) (blocks n : Nat) :
    loopsUnder l.loops blocks n ≤ n ∧
      (∀ i, loopsUnder l.loops blocks n ≤ i → i < n → blocks < (l.loop i).savedBlocks) ∧
      (0 < loopsUnder l.loops blocks n →
        (l.loop (loopsUnder l.loops blocks n - 1)).savedBlocks ≤ blocks) := by
  induction n with
  | zero => exact ⟨Nat.le_refl _, fun i _ hi => by omega, fun h => by cases h⟩
  | succ n ih =>
      obtain ⟨hle, hdropped, hkept⟩ := ih
      unfold loopsUnder
      split
      · rename_i hd
        refine ⟨by omega, fun i hi hn => ?_, hkept⟩
        by_cases he : i = n
        · subst he
          exact hd
        · exact hdropped i hi (by omega)
      · rename_i hd
        refine ⟨Nat.le_refl _, fun i hi hn => by omega, fun _ => ?_⟩
        exact Nat.not_lt.mp hd

theorem dropsLoops (l : CallLevel) : l.DropsLoops l.dropExitedLoops := by
  obtain ⟨hle, hdropped, hkept⟩ := loopsUnder_spec l l.openBlocks l.openLoops
  exact {
    openBlocks := rfl
    jumpTop := rfl
    openLoops := hle
    returnAddress := rfl
    loop := fun _ => rfl
    jump := fun _ => rfl
    dropped := hdropped
    kept := hkept }

end CallLevel

end RoomScript
