import RoomScript.Proofs.Dispatch.Visits

/-!
# What a run reads and writes

An instruction reads and writes cells of the store, flags and variables, in a fixed order; which ones can be
read off the machine in front of it. Reading a cell marks it as used, writing it sets it as well. The store
behind a run is the store in front of it with all accesses of the run carried out, first to last, and two
accesses can change places unless they are to one cell and one of them writes.
-/
namespace RoomScript

/-- One address of the store. -/
inductive Cell where
  | flag (array bit : UInt8)
  | var (id : UInt8)
  deriving DecidableEq

/-- One use of a cell. -/
inductive Access where
  | readFlag (array bit : UInt8)
  | writeFlag (array bit : UInt8) (value : Bool)
  | readVar (id : UInt8)
  | writeVar (id : UInt8) (value : Int16)
  deriving DecidableEq

namespace Access

def cell : Access → Cell
  | readFlag array bit => .flag array bit
  | writeFlag array bit _ => .flag array bit
  | readVar id => .var id
  | writeVar id _ => .var id

def writes : Access → Bool
  | readFlag _ _ => false
  | writeFlag _ _ _ => true
  | readVar _ => false
  | writeVar _ _ => true

/-- An access leaves the value of a cell alone: it goes to another cell, or it only reads. -/
def Spares (a : Access) (c : Cell) : Prop := a.writes → a.cell ≠ c

instance (a : Access) (c : Cell) : Decidable (a.Spares c) := inferInstanceAs (Decidable (_ → _))

theorem not_spares {a : Access} {c : Cell} : ¬a.Spares c ↔ a.writes ∧ a.cell = c := by
  simp only [Spares, Classical.not_imp, ne_eq, not_not]

/-- No access of the one list writes what an access of the other reads or writes. -/
def Apart (as bs : List Access) : Prop := ∀ a ∈ as, ∀ b ∈ bs, a.Spares b.cell ∧ b.Spares a.cell

instance (as bs : List Access) : Decidable (Apart as bs) := inferInstanceAs (Decidable (∀ a ∈ as, _))

end Access

namespace Store

variable {s s' s'' : Store} {c : Cell} {a b : Access}

/-- Two stores hold the same value in a cell. -/
def Agree (s s' : Store) : Cell → Prop
  | .flag array bit => s.flag array bit = s'.flag array bit
  | .var id => s.var id = s'.var id

/-- Whether a cell was ever read or written. -/
def Touched (s : Store) : Cell → Prop
  | .flag array bit => (array, bit) ∈ s.flags
  | .var id => id ∈ s.vars

/-- Carries out an access. -/
def access (s : Store) : Access → Store
  | .readFlag array bit => s.touchFlag array bit
  | .writeFlag array bit value => s.setFlag array bit value
  | .readVar id => s.touchVar id
  | .writeVar id value => s.setVar id value

theorem Agree.refl (s : Store) (c : Cell) : s.Agree s c := by
  cases c <;> rfl

theorem Agree.symm (h : s.Agree s' c) : s'.Agree s c := by
  cases c <;> exact Eq.symm h

theorem Agree.trans (h : s.Agree s' c) (h' : s'.Agree s'' c) : s.Agree s'' c := by
  cases c <;> exact Eq.trans h h'

/-- A lookup with a default, and whether there is something to find, tell what is found. -/
theorem eq_of_getD_eq {α : Type} {o o' : Option α} {d : α} (hv : o.getD d = o'.getD d)
    (hs : o.isSome ↔ o'.isSome) : o = o' := by
  cases o with
  | none =>
      cases o' with
      | none => rfl
      | some v' => simp at hs
  | some v =>
      cases o' with
      | none => simp at hs
      | some v' => exact congrArg some hv

/-- A store is told by the values of its cells and by the cells that were used. -/
theorem ext_cells (hv : ∀ c, s.Agree s' c) (ht : ∀ c, s.Touched c ↔ s'.Touched c) : s = s' := by
  have hflags : s.flags = s'.flags := by
    apply Std.ExtTreeMap.ext_getElem?
    rintro ⟨array, bit⟩
    have h := hv (.flag array bit)
    have h' := ht (.flag array bit)
    simp only [Agree, Touched, flag, Std.ExtTreeMap.getD_eq_getD_getElem?,
      Std.ExtTreeMap.mem_iff_isSome_getElem?] at h h'
    exact eq_of_getD_eq h h'
  have hvars : s.vars = s'.vars := by
    apply Std.ExtTreeMap.ext_getElem?
    intro id
    have h := hv (.var id)
    have h' := ht (.var id)
    simp only [Agree, Touched, var, Std.ExtTreeMap.getD_eq_getD_getElem?,
      Std.ExtTreeMap.mem_iff_isSome_getElem?] at h h'
    exact eq_of_getD_eq h h'
  cases s
  cases s'
  exact congr (congrArg Store.mk hflags) hvars

theorem touched_access (s : Store) (a : Access) (c : Cell) :
    (s.access a).Touched c ↔ a.cell = c ∨ s.Touched c := by
  cases a <;> cases c <;>
    simp [Touched, access, Access.cell, touchFlag, setFlag, touchVar, setVar]

/-- An access that spares a cell does not change what is in it. -/
theorem agree_access (h : a.Spares c) : (s.access a).Agree s c := by
  cases a with
  | readFlag array bit => cases c <;> simp [Agree, access]
  | readVar id => cases c <;> simp [Agree, access]
  | writeFlag array bit value =>
      cases c with
      | flag array' bit' =>
          have hne : (array, bit) ≠ (array', bit') := by
            simpa [Access.Spares, Access.writes, Access.cell] using h
          rw [Agree, access, flag_setFlag, if_neg hne]
      | var id => rfl
  | writeVar id value =>
      cases c with
      | flag array bit => rfl
      | var id' =>
          have hne : id ≠ id' := by simpa [Access.Spares, Access.writes, Access.cell] using h
          rw [Agree, access, var_setVar, if_neg hne]

theorem Agree.access (h : s.Agree s' c) (a : Access) : (s.access a).Agree (s'.access a) c := by
  cases c with
  | flag array bit =>
      have hflag : s.flag array bit = s'.flag array bit := h
      cases a <;> simp [Agree, Store.access, hflag]
  | var id =>
      have hvar : s.var id = s'.var id := h
      cases a <;> simp [Agree, Store.access, hvar]

/-- Two accesses can change places unless they write the same cell. -/
theorem access_comm (h : b.Spares a.cell) : (s.access a).access b = (s.access b).access a := by
  apply ext_cells
  · intro c
    -- At every cell one of the two changes nothing, so the other one decides on both sides.
    by_cases ha : a.Spares c
    · exact (Agree.access (agree_access ha) b).trans (agree_access ha).symm
    · have hb : b.Spares c := (Access.not_spares.mp ha).2 ▸ h
      exact (agree_access hb).trans (Agree.access (agree_access hb) a).symm
  · intro c
    simp only [touched_access, or_left_comm]

/-- Setting a flag that is read first is setting it. -/
theorem setFlag_touchFlag (s : Store) (array bit : UInt8) (value : Bool) :
    (s.touchFlag array bit).setFlag array bit value = s.setFlag array bit value := by
  apply ext_cells
  · intro c
    cases c <;> simp [Agree]
  · intro c
    have h := touched_access (s.touchFlag array bit) (.writeFlag array bit value) c
    have h' := touched_access s (.readFlag array bit) c
    have h'' := touched_access s (.writeFlag array bit value) c
    simp only [access, Access.cell] at h h' h''
    rw [h, h', h'', or_self_left]

variable {as bs : List Access}

theorem foldl_access_access (h : ∀ b ∈ bs, b.Spares a.cell) :
    bs.foldl access (s.access a) = (bs.foldl access s).access a := by
  induction bs generalizing s with
  | nil => rfl
  | cons b bs ih =>
      obtain ⟨hb, hbs⟩ := List.forall_mem_cons.mp h
      simp only [List.foldl_cons]
      rw [access_comm hb, ih hbs]

/-- Accesses that are apart can be carried out in either order. -/
theorem foldl_access_comm (h : Access.Apart as bs) :
    bs.foldl access (as.foldl access s) = as.foldl access (bs.foldl access s) := by
  induction as generalizing s with
  | nil => rfl
  | cons a as ih =>
      obtain ⟨ha, has⟩ := List.forall_mem_cons.mp h
      simp only [List.foldl_cons]
      rw [ih has, foldl_access_access fun b hb => (ha b hb).2]

/-- Accesses that spare a cell do not change what is in it. -/
theorem agree_foldl_access (h : ∀ a ∈ as, a.Spares c) : (as.foldl access s).Agree s c := by
  induction as generalizing s with
  | nil => exact .refl s c
  | cons a as ih =>
      obtain ⟨ha, has⟩ := List.forall_mem_cons.mp h
      exact (ih has).trans (agree_access ha)

theorem touched_foldl_access (s : Store) (as : List Access) (c : Cell) :
    (as.foldl access s).Touched c ↔ (∃ a ∈ as, a.cell = c) ∨ s.Touched c := by
  induction as generalizing s with
  | nil => simp
  | cons a as ih =>
      rw [List.foldl_cons, ih, touched_access]
      simp only [List.mem_cons, exists_eq_or_imp, or_assoc, or_left_comm]

/-- Reading the same cells once more changes nothing. -/
theorem foldl_access_again (as : List Access) (h : ∀ a ∈ as, ¬a.writes) :
    as.foldl access (as.foldl access s) = as.foldl access s := by
  have hspares : ∀ c, ∀ a ∈ as, a.Spares c := fun _ a ha hw => absurd hw (h a ha)
  apply ext_cells
  · exact fun c => agree_foldl_access (hspares c)
  · intro c
    simp only [touched_foldl_access, or_self_left]

theorem Agree.foldl_access (h : s.Agree s' c) (as : List Access) :
    (as.foldl Store.access s).Agree (as.foldl Store.access s') c := by
  induction as generalizing s s' with
  | nil => exact h
  | cons a as ih => exact ih (h.access a)

/-- The accesses of an operation on a variable. Nothing is written when it has no value. -/
def calculateAccesses (s : Store) (op : CalcOp) (id : UInt8) (rhs : Int16) : List Access :=
  .readVar id :: ((op.eval? (s.var id) rhs).map (.writeVar id)).toList

theorem calculate_fst (s : Store) (position : Nat) (op : CalcOp) (id : UInt8) (rhs : Int16) :
    (s.calculate position op id rhs).1 = (s.calculateAccesses op id rhs).foldl access s := by
  simp only [calculate, calculateAccesses, readVar]
  cases op.eval? (s.var id) rhs <;> rfl

end Store

namespace DataCommand

variable {s s' : Store}

/-- The accesses of a data command, in order. -/
def accesses (s : Store) : DataCommand → List Access
  | .checkBit array bit _ => [.readFlag array bit]
  | .setBit _ _ none => []
  | .setBit array bit (some .clear) => [.writeFlag array bit false]
  | .setBit array bit (some .set) => [.writeFlag array bit true]
  | .setBit array bit (some .flip) =>
    [.readFlag array bit, .writeFlag array bit (!s.flag array bit)]
  | .compare _ none _ => []
  | .compare id (some _) _ => [.readVar id]
  | .save id value => [.writeVar id value]
  | .copy target source => [.readVar source, .writeVar target (s.var source)]
  | .calculate none _ _ => []
  | .calculate (some op) id value => s.calculateAccesses op id value
  | .calculateFrom none _ source => [.readVar source]
  | .calculateFrom (some op) id source =>
    .readVar source :: s.calculateAccesses op id (s.var source)

/-- A data command changes the store by its accesses and in no other way. -/
theorem run_fst (c : DataCommand) (position : Nat) (s : Store) :
    (c.run position s).1 = (c.accesses s).foldl Store.access s := by
  cases c with
  | setBit array bit op =>
      rcases op with _ | op
      · rfl
      · cases op with
        | flip => exact (Store.setFlag_touchFlag s array bit _).symm
        | _ => rfl
  | compare id op value => cases op <;> rfl
  | calculate op id value =>
      cases op with
      | none => rfl
      | some op => exact Store.calculate_fst s position op id value
  | calculateFrom op id source =>
      cases op with
      | none => rfl
      | some op =>
          have h := Store.calculate_fst (s.touchVar source) position op id (s.var source)
          simp only [Store.calculateAccesses, Store.var_touchVar] at h
          exact h
  | _ => rfl

/-- What a data command does is told by the cells that it uses. -/
theorem run_congr (c : DataCommand) (position : Nat)
    (h : ∀ a ∈ c.accesses s, s.Agree s' a.cell) :
    c.accesses s' = c.accesses s ∧ (c.run position s').2 = (c.run position s).2 := by
  cases c with
  | checkBit array bit expected =>
      have hv : s.flag array bit = s'.flag array bit := h _ List.mem_cons_self
      have hcheck (s : Store) : (run position s (checkBit array bit expected)).2 =
          .ok (.ofCondition (decide ((s.flag array bit).toUInt8 = expected))) := rfl
      rw [hcheck, hcheck, hv]
      exact ⟨rfl, rfl⟩
  | setBit array bit op =>
      rcases op with _ | op
      · exact ⟨rfl, rfl⟩
      · cases op with
        | flip =>
            have hv : s.flag array bit = s'.flag array bit := h _ List.mem_cons_self
            simp [accesses, run, hv]
        | _ => exact ⟨rfl, rfl⟩
  | compare id op value =>
      cases op with
      | none => exact ⟨rfl, rfl⟩
      | some op =>
          have hv : s.var id = s'.var id := h _ List.mem_cons_self
          simp [accesses, run, Store.readVar, hv]
  | save id value => exact ⟨rfl, rfl⟩
  | copy target source =>
      have hv : s.var source = s'.var source := h _ List.mem_cons_self
      simp [accesses, run, hv]
  | calculate op id value =>
      cases op with
      | none => exact ⟨rfl, rfl⟩
      | some op =>
          have hv : s.var id = s'.var id := h _ List.mem_cons_self
          simp only [accesses, run, Store.calculateAccesses, Store.calculate, Store.readVar, hv]
          cases op.eval? (s'.var id) value <;> simp
  | calculateFrom op id source =>
      have hsource : s.var source = s'.var source := by
        cases op <;> exact h _ List.mem_cons_self
      cases op with
      | none => exact ⟨rfl, rfl⟩
      | some op =>
          have hv : s.var id = s'.var id := h _ (List.mem_cons_of_mem _ List.mem_cons_self)
          simp only [accesses, run, Store.calculateAccesses, Store.calculate, Store.readVar,
            Store.var_touchVar, hsource, hv]
          cases op.eval? (s'.var id) (s'.var source) <;> simp

end DataCommand

/-- The accesses of a command, in order. Flow and event commands and the world use no cell. -/
def Command.accesses (s : Store) : Command → List Access
  | .data c => c.accesses s
  | .switch id _ => [.readVar id]
  | _ => []

namespace Machine

variable {p : Program} {slot : Slot} {m : Machine}

/-- The accesses of the instruction at the thread's position, in order. -/
def accesses (p : Program) (m : Machine) : List Access :=
  (m.command? p).elim [] (Command.accesses m.store)

/-- The accesses of a run, first to last. -/
def journal (p : Program) (slot : Slot) (budget : Nat) (m : Machine) : List Access :=
  (m.visits p slot budget).flatMap (·.accesses p)

theorem store_execute (p : Program) (slot : Slot) (position : Nat) (m : Machine) (c : Command) :
    (m.execute p slot position c).1.store = (c.accesses m.store).foldl Store.access m.store := by
  cases c with
  | flow c =>
      simp only [execute]
      split <;> rfl
  | data c => exact c.run_fst position m.store
  | event c =>
      simp only [execute]
      split <;> rfl
  | switch id length => rfl
  | world i =>
      simp only [execute]
      split <;> rfl

/-- An iteration changes the store by its accesses and in no other way. -/
theorem store_step (p : Program) (slot : Slot) (m : Machine) :
    (m.step p slot).machine.store = (m.accesses p).foldl Store.access m.store := by
  cases hi : p.instructionAt m.thread.pc with
  | error cause =>
      simp only [accesses, command?, hi]
      cases cause with
      | unknownOpcode byte => rw [step_unknown hi]; rfl
      | _ => rw [step_undecodable hi (by simp)]; rfl
  | ok i =>
      rw [step_instruction hi, store_settle, store_execute, accesses, command?_of_instruction hi]
      rfl

theorem store_runFor (p : Program) (slot : Slot) (budget : Nat) (m : Machine) :
    (m.runFor p slot budget).1.store = (m.journal p slot budget).foldl Store.access m.store := by
  induction budget generalizing m with
  | zero => rfl
  | succ budget ih =>
      have hstep := store_step p slot m
      cases hs : m.step p slot with
      | running m' =>
          rw [runFor_of_running hs, journal, visits_of_running hs, List.flatMap_cons,
            List.foldl_append, ← hstep, hs]
          exact ih m'
      | stopped m' result =>
          rw [runFor_of_stopped hs, journal, visits_of_stopped hs, List.flatMap_singleton, ← hstep,
            hs]
          rfl

end Machine

namespace Interpreter

/-- The accesses of a run of the thread in a slot, first to last. -/
def journal (p : Program) (it : Interpreter) (slot : Slot) : List Access :=
  (it.visits p slot).flatMap (·.accesses p)

variable {p : Program} {it : Interpreter} {slot : Slot}

theorem journal_of_alive (h : (it.threads.thread slot).isAlive) :
    it.journal p slot = (it.machine slot).journal p slot p.stepBudget := by
  rw [journal, visits_of_alive h]
  rfl

/-- The store behind a run is the one in front of it with all accesses of the run carried out. -/
theorem store_runSlot (p : Program) (it : Interpreter) (slot : Slot) :
    (it.runSlot p slot).interpreter.store = (it.journal p slot).foldl Store.access it.store := by
  by_cases ha : (it.threads.thread slot).isAlive
  · rw [runSlot_of_alive ha, journal_of_alive ha, store_reportOf, Machine.store_runFor]
    rfl
  · rw [runSlot_of_dead ha, journal, visits_of_dead ha]
    rfl

end Interpreter

end RoomScript
