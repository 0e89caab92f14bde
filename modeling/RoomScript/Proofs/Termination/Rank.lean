import RoomScript.Proofs.Termination.Rows
import Mathlib.Algebra.Group.Nat.Defs

/-!
# The rank of a thread

The digits of all call levels of a thread, the event's own level first, make one number. Levels that are
not in use count as if all their digits were the highest. Every iteration of the dispatch loop that goes
on raises this number: it moves the level in use, and an inner level that a call resets or a return gives
up stands behind the digit that is raised.
-/
namespace RoomScript

/-- The number with the digits `f 0, …, f (n - 1)`, the first of which weighs most. -/
def numeral (base : Nat) (f : Nat → Nat) : Nat → Nat
  | 0 => 0
  | n + 1 => numeral base f n * base + f n

section Numeral

variable {base : Nat} {f g : Nat → Nat} {n : Nat}

theorem numeral_lt_pow (h : ∀ i, i < n → f i < base) : numeral base f n < base ^ n := by
  induction n with
  | zero => exact Nat.one_pos
  | succ n ih =>
      have hn := ih fun i hi => h i (by omega)
      have hlast := h n (Nat.lt_succ_self n)
      calc numeral base f n * base + f n
          < numeral base f n * base + base := Nat.add_lt_add_left hlast _
        _ = (numeral base f n + 1) * base := (Nat.succ_mul _ _).symm
        _ ≤ base ^ n * base := Nat.mul_le_mul_right _ hn

theorem numeral_le_numeral (h : ∀ i, i < n → f i ≤ g i) : numeral base f n ≤ numeral base g n := by
  induction n with
  | zero => exact Nat.le_refl _
  | succ n ih =>
      have hn := ih fun i hi => h i (by omega)
      exact Nat.add_le_add (Nat.mul_le_mul_right _ hn) (h n (Nat.lt_succ_self n))

/-- A number is below another if none of its digits is larger up to one that is smaller. -/
theorem numeral_lt_numeral {i : Nat} (hi : i < n) (hf : ∀ k, k < n → f k < base)
    (hle : ∀ k, k < i → f k ≤ g k) (hlt : f i < g i) : numeral base f n < numeral base g n := by
  induction n with
  | zero => omega
  | succ n ih =>
      by_cases he : i = n
      · subst he
        exact Nat.add_lt_add_of_le_of_lt
          (Nat.mul_le_mul_right _ (numeral_le_numeral hle)) hlt
      · have hn := ih (by omega) fun k hk => hf k (by omega)
        have hlast := hf n (Nat.lt_succ_self n)
        calc numeral base f n * base + f n
            < numeral base f n * base + base := Nat.add_lt_add_left hlast _
          _ = (numeral base f n + 1) * base := (Nat.succ_mul _ _).symm
          _ ≤ numeral base g n * base := Nat.mul_le_mul_right _ hn
          _ ≤ numeral base g n * base + g n := Nat.le_add_right _ _

end Numeral

/-- The number of a call level whose digits are given row by row. -/
def rowsNumeral (base : Nat) (f : Nat → Nat → Nat) : Nat :=
  numeral (base ^ (jumpStackDepth + 2)) (fun j => numeral base (f j) (jumpStackDepth + 2))
    (loopSlots + 1)

theorem rowsNumeral_lt_pow {base : Nat} {f : Nat → Nat → Nat} (hf : ∀ j k, f j k < base) :
    rowsNumeral base f < base ^ ((loopSlots + 1) * (jumpStackDepth + 2)) := by
  rw [Nat.mul_comm, Nat.pow_mul]
  exact numeral_lt_pow fun j _ => numeral_lt_pow fun k _ => hf j k

theorem rowsNumeral_lt {base j k : Nat} {f g : Nat → Nat → Nat} (hf : ∀ j k, f j k < base)
    (hj : j ≤ loopSlots) (hk : k ≤ jumpStackDepth + 1)
    (hrows : ∀ i m, i < j → f i m ≤ g i m) (hle : ∀ m, m < k → f j m ≤ g j m)
    (hlt : f j k < g j k) : rowsNumeral base f < rowsNumeral base g :=
  numeral_lt_numeral (Nat.lt_succ_of_le hj) (fun i _ => numeral_lt_pow fun m _ => hf i m)
    (fun i hi => numeral_le_numeral fun m _ => hrows i m hi)
    (numeral_lt_numeral (Nat.lt_succ_of_le hk) (fun m _ => hf j m) hle hlt)

theorem Program.lt_size_of_unknownOpcode {p : Program} {position : Nat} {byte : UInt8}
    (h : p.instructionAt position = .error (.unknownOpcode byte)) : position < p.code.size := by
  rcases Nat.lt_or_ge position p.code.size with hp | hp
  · exact hp
  · rw [instructionAt, Instruction.decodeAt_eq_outOfBounds hp] at h
    cases h

namespace CallLevel

/-- A level moves only while it stands inside the code. -/
theorem Moves.lt_size {p : Program} {l l' : CallLevel} {position next : Nat}
    (h : l.Moves p position next l') : position < p.code.size := by
  cases h with
  | skip hi => exact Program.lt_size_of_unknownOpcode hi
  | _ => exact Instruction.lt_size_of_decodeAt ‹p.instructionAt position = .ok _›

theorem digit_lt (p : Program) (position : Nat) (l : CallLevel) (j k : Nat) :
    l.digit p.code.size position j k + 1 < p.rankBase := by
  have hrow := rowDigit_le p.code.size l.jumpMark (l.rowMark position j) (l.rowBlocks j) k
  have hrounds : l.rounds j ≤ 65536 := by
    unfold rounds
    split <;> omega
  unfold digit Program.rankBase
  split
  · omega
  · split <;> omega

end CallLevel

namespace Thread

variable {p : Program} {t t' : Thread}

/-- The digits of the call level with an index. -/
def digit (p : Program) (t : Thread) (i j k : Nat) : Nat :=
  if h : i ≤ t.depth.val then
    (t.levelAt ⟨i, Nat.lt_of_le_of_lt h t.depth.isLt⟩).digit p.code.size
      (t.position ⟨i, Nat.lt_of_le_of_lt h t.depth.isLt⟩) j k
  else
    p.rankBase - 1

def rank (p : Program) (t : Thread) : Nat :=
  numeral (p.rankBase ^ ((loopSlots + 1) * (jumpStackDepth + 2)))
    (fun i => rowsNumeral p.rankBase (t.digit p i)) maxCallLevels

theorem digit_of_le {i : Fin maxCallLevels} (h : i ≤ t.depth) :
    t.digit p i = (t.levelAt i).digit p.code.size (t.position i) := by
  funext j k
  exact dif_pos h

theorem digit_of_lt {i : Nat} (h : t.depth.val < i) (j k : Nat) :
    t.digit p i j k = p.rankBase - 1 :=
  dif_neg (Nat.not_le.mpr h)

theorem digit_lt_rankBase (p : Program) (t : Thread) (i j k : Nat) :
    t.digit p i j k < p.rankBase := by
  unfold digit
  split
  · exact Nat.lt_of_succ_lt (CallLevel.digit_lt p _ _ j k)
  · unfold Program.rankBase
    omega

theorem rank_lt_stepBudget (p : Program) (t : Thread) : t.rank p < p.stepBudget := by
  have h : t.rank p <
      (p.rankBase ^ ((loopSlots + 1) * (jumpStackDepth + 2))) ^ maxCallLevels :=
    numeral_lt_pow fun i _ => rowsNumeral_lt_pow (t.digit_lt_rankBase p i)
  rwa [← Nat.pow_mul, Nat.mul_comm] at h

/-- The rank is raised when the digits of one level are and those of the levels outside are kept. -/
theorem rank_lt_rank {i j k : Nat} (hi : i < maxCallLevels) (hj : j ≤ loopSlots)
    (hk : k ≤ jumpStackDepth + 1) (houter : ∀ n, n < i → t'.digit p n = t.digit p n)
    (hrows : ∀ n m, n < j → t.digit p i n m ≤ t'.digit p i n m)
    (hle : ∀ m, m < k → t.digit p i j m ≤ t'.digit p i j m)
    (hlt : t.digit p i j k < t'.digit p i j k) : t.rank p < t'.rank p :=
  numeral_lt_numeral hi (fun n _ => rowsNumeral_lt_pow (t.digit_lt_rankBase p n))
    (fun n hn => Nat.le_of_eq (by rw [houter n hn]))
    (rowsNumeral_lt (t.digit_lt_rankBase p i) hj hk hrows hle hlt)

/-- A thread that moves raises its rank with the digits of the level it moved. -/
theorem rank_lt_of_raises {i : Fin maxCallLevels} (hi : i ≤ t.depth) (hi' : i ≤ t'.depth)
    (hlevel : ∀ n, n < i → t'.levelAt n = t.levelAt n)
    (hposition : ∀ n, n < i → t'.position n = t.position n)
    (hr : (t.levelAt i).Raises p.code.size (t.position i) (t'.position i) (t'.levelAt i)) :
    t.rank p < t'.rank p := by
  obtain ⟨j, k, hj, hk, hrows, hle, hlt⟩ := hr
  rw [← digit_of_le hi, ← digit_of_le hi'] at hrows hle hlt
  refine rank_lt_rank i.isLt hj hk (fun n hn => ?_) hrows hle hlt
  have hn' : (⟨n, by omega⟩ : Fin maxCallLevels) < i := hn
  have hd := Nat.le_trans (Nat.le_of_lt hn) hi
  have hd' := Nat.le_trans (Nat.le_of_lt hn) hi'
  have h : t.digit p n = _ := digit_of_le (i := ⟨n, by omega⟩) hd
  have h' : t'.digit p n = _ := digit_of_le (i := ⟨n, by omega⟩) hd'
  rw [h, h', hlevel _ hn', hposition _ hn']

/-- The rank is raised when the level in use moves, whatever it calls then. -/
theorem rank_lt_of_moves {pc : Nat} {level : CallLevel} (h : t.Holds CallLevel.Forward)
    (hl : t.level.Moves p t.pc pc level) (hd : t.depth ≤ t'.depth)
    (hlevel : ∀ n, n ≤ t.depth → t'.levelAt n = (t.within pc level).levelAt n)
    (hposition : ∀ n, n ≤ t.depth → t'.position n = (t.within pc level).position n) :
    t.rank p < t'.rank p := by
  have ha := t.alike_within pc hl.returnAddress_eq t.work t.status
  refine rank_lt_of_raises (Fin.le_refl _) hd
    (fun n hn => (hlevel n (Fin.le_of_lt hn)).trans (ha.levelAt n (Fin.ne_of_lt hn)))
    (fun n hn => (hposition n (Fin.le_of_lt hn)).trans (ha.position hn)) ?_
  have hr := hl.raises h.level hl.lt_size
  have hp : (t.within pc level).position t.depth = pc := position_depth _
  rwa [position_depth, levelAt_depth, hlevel _ (Fin.le_refl _), hposition _ (Fin.le_refl _), hp,
    levelAt_within_self]

/-- The level that a return gives up counts as raised, and those outside it stay. -/
theorem rank_lt_of_return? (ht : t.return? = some t') : t.rank p < t'.rank p := by
  have hret := returns_of_return? ht
  have hdepth := hret.depth
  refine rank_lt_rank (i := t.depth.val) (j := 0) (k := 0) t.depth.isLt (Nat.zero_le _)
    (Nat.zero_le _) (fun n hn => ?_) (fun _ _ hn => absurd hn (Nat.not_lt_zero _))
    (fun _ hn => absurd hn (Nat.not_lt_zero _)) ?_
  · have hn' : n ≤ t'.depth.val := by omega
    have hb : n < maxCallLevels := Nat.lt_of_le_of_lt hn' t'.depth.isLt
    have h₁ : t.digit p n = _ := digit_of_le (i := ⟨n, hb⟩) (Nat.le_of_lt hn)
    have h₂ : t'.digit p n = _ := digit_of_le (i := ⟨n, hb⟩) hn'
    rw [h₁, h₂, hret.position hn']
    rcases Nat.lt_or_eq_of_le hn' with hlt | he
    · rw [hret.levelAt _ hlt]
    · have he' : (⟨n, hb⟩ : Fin maxCallLevels) = t'.depth := Fin.ext he
      rw [he', levelAt_depth, hret.level]
      rfl
  · rw [digit_of_le (Fin.le_refl _), digit_of_lt (by omega)]
    have hlt := CallLevel.digit_lt p (t.position t.depth) (t.levelAt t.depth) 0 0
    omega

/-- Every iteration that goes on raises the rank of the thread. -/
theorem Moves.rank_lt (hm : t.Moves p t') (h : t.Holds CallLevel.Forward) :
    t.rank p < t'.rank p := by
  cases hm with
  | within work hl => exact rank_lt_of_moves h hl (Fin.le_refl _) (fun _ _ => rfl) fun _ _ => rfl
  | call hi hc he ht =>
      have hcalls := calls_of_call? ht
      have hd : t.depth.val ≤ t'.depth.val := hcalls.depth ▸ Nat.le_succ _
      exact rank_lt_of_moves h (.pass hi (by rw [hc]; trivial)) hd (fun n hn => hcalls.levelAt n hn)
        fun n hn => hcalls.position hn
  | leave _ _ ht => exact rank_lt_of_return? ht

end Thread

end RoomScript
