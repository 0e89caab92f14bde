import RoomScript.Proofs.Store.Nested

/-!
# The store is total

The store is followed along its history. Behind each call it holds the values of the total store and the addresses
that were used, so it gives back what the total store gives back, and the size of its trees is the number of
addresses. The store with its flags in bytes cannot be told from it.
-/
namespace RoomScript

/-- A tree counts its keys. -/
theorem size_eq_card {α β : Type} {cmp : α → α → Ordering} [Std.TransCmp cmp] [Std.LawfulEqCmp cmp]
    [DecidableEq α] {tree : Std.ExtTreeMap α β cmp} {keys : Finset α}
    (h : ∀ x, x ∈ tree ↔ x ∈ keys) : tree.size = keys.card := by
  have hkeys : tree.keys.toFinset = keys := by
    ext x
    rw [List.mem_toFinset, Std.ExtTreeMap.mem_keys, h]
  rw [← hkeys, List.toFinset_card_of_nodup Std.ExtTreeMap.nodup_keys, Std.ExtTreeMap.length_keys]

namespace Store

variable {s : Store} {calls : List StoreCall} {c : StoreCall}

/-- The store holds the values of a total store. -/
structure Holds (s : Store) (t : TotalStore) : Prop where
  flag_eq : ∀ array bit, t.flag (array, bit) = (s.flag array bit).toUInt8
  var_eq : ∀ id, t.var id = s.var id

variable {t : TotalStore}

theorem Holds.empty : Holds {} {} where
  flag_eq array bit := by
    simp [flag]
    rfl
  var_eq id := by simp [var]

theorem Holds.touchFlag (h : s.Holds t) (array bit : UInt8) : (s.touchFlag array bit).Holds t where
  flag_eq array' bit' := by rw [flag_touchFlag, h.flag_eq]
  var_eq id := h.var_eq id

theorem Holds.touchVar (h : s.Holds t) (id : UInt8) : (s.touchVar id).Holds t where
  flag_eq array bit := h.flag_eq array bit
  var_eq id' := by rw [var_touchVar, h.var_eq]

theorem Holds.setFlag (h : s.Holds t) (array bit : UInt8) {value : Bool} {byte : UInt8}
    (hb : value.toUInt8 = byte) :
    (s.setFlag array bit value).Holds
      { t with flag := Function.update t.flag (array, bit) byte } where
  flag_eq array' bit' := by
    by_cases heq : (array, bit) = (array', bit')
    · simp [heq, hb]
    · simp [heq, Ne.symm heq, h.flag_eq]
  var_eq id := h.var_eq id

theorem Holds.setVar (h : s.Holds t) (id : UInt8) (value : Int16) :
    (s.setVar id value).Holds { t with var := Function.update t.var id value } where
  flag_eq array bit := h.flag_eq array bit
  var_eq id' := by
    by_cases heq : id = id'
    · simp [heq]
    · simp [heq, Ne.symm heq, h.var_eq]

/-- A call gives back the same on both stores and leaves the same values in both. -/
theorem Holds.call (h : s.Holds t) (c : StoreCall) :
    (s.call c).1 = (t.call c).1 ∧ (s.call c).2.Holds (t.call c).2 := by
  cases c with
  | readFlag array bit =>
      exact ⟨congrArg StoreAnswer.flag (h.flag_eq array bit).symm, h.touchFlag array bit⟩
  | setFlag array bit value =>
      have hvalue : (decide (value ≠ 0)).toUInt8 = if value = 0 then 0 else 1 := by
        by_cases hzero : value = 0 <;> simp [hzero] <;> rfl
      exact ⟨rfl, h.setFlag array bit hvalue⟩
  | flipFlag array bit =>
      have hvalue : (!s.flag array bit).toUInt8 = if t.flag (array, bit) = 0 then 1 else 0 := by
        rw [h.flag_eq]
        cases s.flag array bit <;> rfl
      exact ⟨congrArg StoreAnswer.flag hvalue, h.setFlag array bit hvalue⟩
  | readVar id => exact ⟨congrArg StoreAnswer.var (h.var_eq id).symm, h.touchVar id⟩
  | setVar id value => exact ⟨rfl, h.setVar id value⟩
  | clear => exact ⟨rfl, .empty⟩

theorem mem_flags_call {x : UInt8 × UInt8} :
    x ∈ (s.call c).2.flags ↔ c ≠ .clear ∧ (x ∈ s.flags ∨ c.flag? = some x) := by
  cases c <;>
    simp [call, readFlag, touchFlag, setFlag, flipFlag, readVar, touchVar, setVar, clear,
      StoreCall.flag?, or_comm]

theorem mem_vars_call {id : UInt8} :
    id ∈ (s.call c).2.vars ↔ c ≠ .clear ∧ (id ∈ s.vars ∨ c.var? = some id) := by
  cases c <;>
    simp [call, readFlag, touchFlag, setFlag, flipFlag, readVar, touchVar, setVar, clear,
      StoreCall.var?, or_comm]

/-- The store is what its history says. -/
structure Follows (s : Store) (calls : List StoreCall) : Prop where
  holds : s.Holds (.after calls)
  mem_flags_iff : ∀ x, x ∈ s.flags ↔ x ∈ StoreCall.usedFlags calls
  mem_vars_iff : ∀ id, id ∈ s.vars ↔ id ∈ StoreCall.usedVars calls

theorem Follows.empty : Follows {} [] where
  holds := .empty
  mem_flags_iff x := by simp
  mem_vars_iff id := by simp

theorem Follows.call (h : s.Follows calls) (c : StoreCall) : (s.call c).2.Follows (calls ++ [c]) where
  holds := TotalStore.after_concat ▸ (h.holds.call c).2
  mem_flags_iff x := by rw [mem_flags_call, h.mem_flags_iff, StoreCall.mem_usedFlags_concat]
  mem_vars_iff id := by rw [mem_vars_call, h.mem_vars_iff, StoreCall.mem_usedVars_concat]

theorem follows_after (calls : List StoreCall) : (kind.after calls).Follows calls := by
  induction calls using List.reverseRecOn with
  | nil => exact .empty
  | append_singleton calls c ih =>
      rw [StoreKind.after_concat]
      exact ih.call c

theorem answer_eq (calls : List StoreCall) (c : StoreCall) :
    kind.answer calls c = ((TotalStore.after calls).call c).1 :=
  ((follows_after calls).holds.call c).1

theorem flag_binary {value : UInt8} (h : (s.call c).1 = .flag value) : value = 0 ∨ value = 1 := by
  have hbool : ∀ b : Bool, b.toUInt8 = 0 ∨ b.toUInt8 = 1 := by decide
  cases c with
  | readFlag array bit =>
      cases h
      exact hbool _
  | flipFlag array bit =>
      cases h
      exact hbool _
  | _ => cases h

theorem totalAfter (calls : List StoreCall) : kind.TotalAfter calls where
  answer_eq := answer_eq calls
  flag_binary _ _ := flag_binary
  touchedFlags_eq := size_eq_card (follows_after calls).mem_flags_iff
  touchedVars_eq := size_eq_card (follows_after calls).mem_vars_iff
  answer_of_writes others ho c := by
    rw [answer_eq, answer_eq, ← TotalStore.after_filter others, ho, TotalStore.after_filter]

/-- Behind any calls a script store cannot be told from a total store that is zero wherever nothing was written
since it was last cleared, and it counts the addresses that were used. Nor can a store be told from it that keeps
its flags in bytes and turns them over bit by bit. -/
theorem total_after_calls (calls : List StoreCall) :
    kind.TotalAfter calls ∧ NestedStore.kind.TotalAfter calls :=
  ⟨totalAfter calls, (totalAfter calls).of_alike NestedStore.kind_alike⟩

example :
    let n := NestedStore.kind.after [.flipFlag 3 17, .readFlag 4 17, .flipFlag 3 17, .readVar 5]
    n.byte 3 17 = 0 ∧ n.touchedFlags = 2 ∧ n.touchedVars = 1 := by
  decide +kernel

end Store

end RoomScript
