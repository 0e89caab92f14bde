import RoomScript.Proofs.Dispatch.Levels
import RoomScript.Proofs.Relocation.Level
import RoomScript.Proofs.Relocation.Program

/-!
# Threads of code that starts later

Two threads correspond when they are alike but for their positions, which the second keeps `d` bytes
later: its own, those on the call levels in use, and the positions to which subroutines return. The
event's own level returns nowhere. Each flow command takes corresponding threads to corresponding ones,
or fails on both with the same fault, at positions `d` bytes apart.
-/
namespace RoomScript

/-- How much later the level with an index returns. -/
def returnShift (d : Nat) (i : Fin maxCallLevels) : Nat := if i.val = 0 then 0 else d

/-- The second thread keeps its positions `d` bytes later. Both are alive. -/
structure Thread.Shifted (d : Nat) (t t' : Thread) : Prop where
  alive : t.isAlive
  status : t'.status = t.status
  depth : t'.depth = t.depth
  work : t'.work = t.work
  callTrace : t'.callTrace = t.callTrace
  pc : t'.pc = t.pc + d
  levelAt : ∀ i, i ≤ t.depth → (t.levelAt i).Shifted d (returnShift d i) (t'.levelAt i)

/-- Two results that are both faults, the second `d` bytes later, or both none. -/
inductive Fault.Agree {α β : Type} (d : Nat) (R : α → β → Prop) :
    Except Fault α → Except Fault β → Prop
  | ok {a : α} {b : β} : R a b → Agree d R (.ok a) (.ok b)
  | error (fault : Fault) : Agree d R (.error fault) (.error (fault.shift d))

namespace Thread.Shifted

variable {d : Nat} {t t' : Thread}

theorem start (d entry : Nat) (event : UInt8) :
    (Thread.start entry event).Shifted d (Thread.start (entry + d) event) where
  alive := rfl
  status := rfl
  depth := rfl
  work := rfl
  callTrace := rfl
  pc := rfl
  levelAt i hi := by
    have hi' : i = 0 := Fin.le_zero_iff.mp hi
    subst hi'
    exact .fresh d 0 0

theorem level (h : t.Shifted d t') : t.level.Shifted d (returnShift d t.depth) t'.level := by
  have hl := h.levelAt t.depth (Fin.le_refl _)
  rw [← h.depth, levelAt_depth, h.depth, levelAt_depth] at hl
  exact hl

/-- The level in use may change, and so may the position. -/
theorem within (h : t.Shifted d t') {level level' : CallLevel} {pc pc' : Nat} (hpc : pc' = pc + d)
    (hl : level.Shifted d (returnShift d t.depth) level') :
    (t.within pc level).Shifted d (t'.within pc' level') where
  alive := h.alive
  status := h.status
  depth := h.depth
  work := h.work
  callTrace := h.callTrace
  pc := hpc
  levelAt i hi := by
    by_cases he : i = t.depth
    · rw [he, levelAt_within_self, ← h.depth, levelAt_within_self, h.depth]
      exact hl
    · rw [levelAt_within_of_ne he, levelAt_within_of_ne (h.depth.symm ▸ he)]
      exact h.levelAt i hi

/-- The thread may move without touching its levels. -/
theorem goto (h : t.Shifted d t') {pc pc' : Nat} (hpc : pc' = pc + d) :
    ({ t with pc } : Thread).Shifted d { t' with pc := pc' } :=
  { h with pc := hpc }

theorem call? (h : t.Shifted d t') (entry : Nat) (event : UInt8) :
    Option.Rel (Shifted d) (t.call? entry event) (t'.call? (entry + d) event) := by
  by_cases hroom : t.depth.val + 1 < maxCallLevels
  · have hsome : ∃ s, t.call? entry event = some s := ⟨_, dif_pos hroom⟩
    have hsome' : ∃ s, t'.call? (entry + d) event = some s :=
      ⟨_, dif_pos (h.depth.symm ▸ hroom)⟩
    obtain ⟨s, hs⟩ := hsome
    obtain ⟨s', hs'⟩ := hsome'
    have hc := calls_of_call? hs
    have hc' := calls_of_call? hs'
    have hdepth : s'.depth = s.depth := Fin.ext (by rw [hc'.depth, hc.depth, h.depth])
    rw [hs, hs']
    refine .some {
      alive := by simpa only [isAlive, hc.status] using h.alive
      status := by rw [hc'.status, hc.status, h.status]
      depth := hdepth
      work := by rw [hc'.work, hc.work, h.work]
      callTrace := by rw [hc'.callTrace, hc.callTrace, h.callTrace]
      pc := by rw [hc'.pc, hc.pc]
      levelAt := fun i hi => ?_ }
    by_cases hle : i ≤ t.depth
    · rw [hc.levelAt i hle, hc'.levelAt i (h.depth.symm ▸ hle)]
      exact h.levelAt i hle
    · have hi' : i = s.depth := by
        have h1 : i.val ≤ s.depth.val := hi
        have h2 : ¬i.val ≤ t.depth.val := hle
        have h3 := hc.depth
        exact Fin.ext (by omega)
      have hne : s.depth.val ≠ 0 := by
        rw [hc.depth]
        exact Nat.succ_ne_zero _
      rw [hi', levelAt_depth, ← hdepth, levelAt_depth, hc.level, hc'.level, h.pc, hdepth,
        returnShift, if_neg hne]
      exact .fresh d d t.pc
  · have hnone : t.call? entry event = none := dif_neg hroom
    have hnone' : t'.call? (entry + d) event = none := dif_neg (h.depth.symm ▸ hroom)
    rw [hnone, hnone']
    exact .none

theorem return? (h : t.Shifted d t') : Option.Rel (Shifted d) t.return? t'.return? := by
  by_cases hzero : t.depth.val = 0
  · have hnone : t.return? = none := if_pos hzero
    have hnone' : t'.return? = none := if_pos (h.depth.symm ▸ hzero)
    rw [hnone, hnone']
    exact .none
  · have hsome : ∃ s, t.return? = some s := ⟨_, if_neg hzero⟩
    have hsome' : ∃ s, t'.return? = some s := ⟨_, if_neg (h.depth.symm ▸ hzero)⟩
    obtain ⟨s, hs⟩ := hsome
    obtain ⟨s', hs'⟩ := hsome'
    have hr := returns_of_return? hs
    have hr' := returns_of_return? hs'
    have hd := hr.depth
    have hd' := hr'.depth
    have hdepth : s'.depth = s.depth := Fin.ext (by rw [h.depth] at hd'; omega)
    rw [hs, hs']
    refine .some {
      alive := by simpa only [isAlive, hr.status] using h.alive
      status := by rw [hr'.status, hr.status, h.status]
      depth := hdepth
      work := by rw [hr'.work, hr.work, h.work]
      callTrace := by rw [hr'.callTrace, hr.callTrace, h.callTrace]
      pc := by rw [hr'.pc, hr.pc, h.level.returnAddress, returnShift, if_neg hzero]
      levelAt := fun i hi => ?_ }
    have hle : i ≤ t.depth := by
      have h1 : i.val ≤ s.depth.val := hi
      exact (show i.val ≤ t.depth.val by omega)
    have hl := h.levelAt i hle
    rcases Fin.lt_or_eq_of_le hi with hlt | rfl
    · rw [hr.levelAt i hlt, hr'.levelAt i (hdepth.symm ▸ hlt)]
      exact hl
    · rw [levelAt_depth, ← hdepth, levelAt_depth, hr.level, hr'.level, hdepth]
      exact hl.resync

end Thread.Shifted

end RoomScript
