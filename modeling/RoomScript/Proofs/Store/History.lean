import RoomScript.Store
import Mathlib.Data.Finset.Card
import Mathlib.Data.Finset.Dedup
import Mathlib.Data.List.DropRight
import Mathlib.Logic.Function.Basic

/-!
# Calls on a script store

A host calls a script store in any order: it reads, sets and flips flags, reads and sets variables, and clears
all of it. What a store has to do is told by its history alone. Values are those of a total store, a map that has
a value for every address and zero where nothing was written; what was used is read off the calls since the last
one that cleared the store. A kind of store is total when it does the same behind every history. In what form it
keeps its values, and when it makes room for them, is its own affair.
-/
namespace RoomScript

/-- One call on a script store. -/
inductive StoreCall where
  | readFlag (array bit : UInt8)
  /-- Zero clears the flag, any other value sets it. -/
  | setFlag (array bit value : UInt8)
  | flipFlag (array bit : UInt8)
  | readVar (id : UInt8)
  | setVar (id : UInt8) (value : Int16)
  | clear
  deriving DecidableEq

/-- What a call gives back. -/
inductive StoreAnswer where
  | done
  | flag (value : UInt8)
  | var (value : Int16)
  deriving DecidableEq

namespace StoreCall

/-- The flag that a call uses. -/
def flag? : StoreCall → Option (UInt8 × UInt8)
  | readFlag array bit => some (array, bit)
  | setFlag array bit _ => some (array, bit)
  | flipFlag array bit => some (array, bit)
  | _ => none

/-- The variable that a call uses. -/
def var? : StoreCall → Option UInt8
  | readVar id => some id
  | setVar id _ => some id
  | _ => none

/-- Whether a call may change a value. -/
def writes : StoreCall → Bool
  | readFlag _ _ => false
  | readVar _ => false
  | _ => true

/-- The calls since the last one that cleared the store, or since the start. -/
def sinceClear (calls : List StoreCall) : List StoreCall := calls.rtakeWhile (· ≠ clear)

/-- The flags used since the store was last cleared. -/
def usedFlags (calls : List StoreCall) : Finset (UInt8 × UInt8) :=
  ((sinceClear calls).filterMap flag?).toFinset

/-- The variables used since the store was last cleared. -/
def usedVars (calls : List StoreCall) : Finset UInt8 := ((sinceClear calls).filterMap var?).toFinset

variable {calls : List StoreCall} {c : StoreCall}

@[simp] theorem usedFlags_nil : usedFlags [] = ∅ := rfl

@[simp] theorem usedVars_nil : usedVars [] = ∅ := rfl

theorem sinceClear_concat :
    sinceClear (calls ++ [c]) = if c = clear then [] else sinceClear calls ++ [c] := by
  by_cases h : c = clear <;> simp [sinceClear, h]

theorem mem_usedFlags_concat {x : UInt8 × UInt8} :
    x ∈ usedFlags (calls ++ [c]) ↔ c ≠ clear ∧ (x ∈ usedFlags calls ∨ c.flag? = some x) := by
  by_cases h : c = clear <;> simp [usedFlags, sinceClear_concat, h]

theorem mem_usedVars_concat {id : UInt8} :
    id ∈ usedVars (calls ++ [c]) ↔ c ≠ clear ∧ (id ∈ usedVars calls ∨ c.var? = some id) := by
  by_cases h : c = clear <;> simp [usedVars, sinceClear_concat, h]

end StoreCall

/-- A value for every address. -/
structure TotalStore where
  flag : UInt8 × UInt8 → UInt8 := fun _ => 0
  var : UInt8 → Int16 := fun _ => 0

namespace TotalStore

/-- What a call does to a total store, and what it gives back. -/
def call (t : TotalStore) : StoreCall → StoreAnswer × TotalStore
  | .readFlag array bit => (.flag (t.flag (array, bit)), t)
  | .setFlag array bit value =>
    (.done, { t with flag := Function.update t.flag (array, bit) (if value = 0 then 0 else 1) })
  | .flipFlag array bit =>
    let value := if t.flag (array, bit) = 0 then 1 else 0
    (.flag value, { t with flag := Function.update t.flag (array, bit) value })
  | .readVar id => (.var (t.var id), t)
  | .setVar id value => (.done, { t with var := Function.update t.var id value })
  | .clear => (.done, {})

/-- The total store behind some calls, first to last. -/
def after (calls : List StoreCall) : TotalStore := calls.foldl (fun t c => (t.call c).2) {}

variable {calls : List StoreCall} {c : StoreCall}

theorem after_concat : after (calls ++ [c]) = ((after calls).call c).2 := List.foldl_concat ..

theorem call_of_reads {t : TotalStore} (h : ¬c.writes) : (t.call c).2 = t := by
  cases c <;> first | rfl | exact absurd rfl h

/-- Reads leave no trace in a total store. -/
theorem after_filter (calls : List StoreCall) : after (calls.filter (·.writes)) = after calls := by
  induction calls using List.reverseRecOn with
  | nil => rfl
  | append_singleton calls c ih =>
      rw [List.filter_append, after_concat]
      by_cases h : c.writes
      · rw [List.filter_singleton, h, cond_true, after_concat, ih]
      · rw [List.filter_singleton, Bool.eq_false_of_not_eq_true h, cond_false, List.append_nil, ih,
          call_of_reads h]

end TotalStore

/-- A way to keep a script store. -/
structure StoreKind (σ : Type) where
  empty : σ
  call : σ → StoreCall → StoreAnswer × σ
  /-- How many flags were used. -/
  touchedFlags : σ → Nat
  /-- How many variables were used. -/
  touchedVars : σ → Nat

namespace StoreKind

variable {σ τ : Type} {k : StoreKind σ} {l : StoreKind τ} {calls : List StoreCall} {c : StoreCall}

/-- The store behind some calls, first to last. -/
def after (k : StoreKind σ) (calls : List StoreCall) : σ :=
  calls.foldl (fun s c => (k.call s c).2) k.empty

/-- What one more call gives back. -/
def answer (k : StoreKind σ) (calls : List StoreCall) (c : StoreCall) : StoreAnswer :=
  (k.call (k.after calls) c).1

theorem after_concat : k.after (calls ++ [c]) = (k.call (k.after calls) c).2 := List.foldl_concat ..

/-- Behind some calls a kind of store cannot be told from a total store. -/
structure TotalAfter (k : StoreKind σ) (calls : List StoreCall) : Prop where
  /-- Any further call gives back what it gives back on the total store. -/
  answer_eq : ∀ c, k.answer calls c = ((TotalStore.after calls).call c).1
  /-- A flag is given back as zero or one. -/
  flag_binary : ∀ c value, k.answer calls c = .flag value → value = 0 ∨ value = 1
  touchedFlags_eq : k.touchedFlags (k.after calls) = (StoreCall.usedFlags calls).card
  touchedVars_eq : k.touchedVars (k.after calls) = (StoreCall.usedVars calls).card
  /-- Calls that differ from these in reads only, wherever they stand, make no difference to a further call. -/
  answer_of_writes : ∀ others : List StoreCall,
    others.filter (·.writes) = calls.filter (·.writes) → ∀ c, k.answer others c = k.answer calls c

/-- Two kinds of store that give back and count the same behind any calls. -/
structure Alike (k : StoreKind σ) (l : StoreKind τ) : Prop where
  answer_eq : ∀ calls c, k.answer calls c = l.answer calls c
  touchedFlags_eq : ∀ calls, k.touchedFlags (k.after calls) = l.touchedFlags (l.after calls)
  touchedVars_eq : ∀ calls, k.touchedVars (k.after calls) = l.touchedVars (l.after calls)

theorem TotalAfter.of_alike (h : l.TotalAfter calls) (hk : k.Alike l) : k.TotalAfter calls where
  answer_eq c := (hk.answer_eq calls c).trans (h.answer_eq c)
  flag_binary c value hc := h.flag_binary c value ((hk.answer_eq calls c).symm.trans hc)
  touchedFlags_eq := (hk.touchedFlags_eq calls).trans h.touchedFlags_eq
  touchedVars_eq := (hk.touchedVars_eq calls).trans h.touchedVars_eq
  answer_of_writes others ho c := by
    rw [hk.answer_eq, hk.answer_eq, h.answer_of_writes others ho]

end StoreKind

namespace Store

/-- A call on the store, with a byte for each flag. -/
def call (s : Store) : StoreCall → StoreAnswer × Store
  | .readFlag array bit =>
    let (value, s) := s.readFlag array bit
    (.flag value.toUInt8, s)
  | .setFlag array bit value => (.done, s.setFlag array bit (value ≠ 0))
  | .flipFlag array bit =>
    let (value, s) := s.flipFlag array bit
    (.flag value.toUInt8, s)
  | .readVar id =>
    let (value, s) := s.readVar id
    (.var value, s)
  | .setVar id value => (.done, s.setVar id value)
  | .clear => (.done, s.clear)

def kind : StoreKind Store where
  empty := {}
  call := call
  touchedFlags := touchedFlags
  touchedVars := touchedVars

end Store

end RoomScript
