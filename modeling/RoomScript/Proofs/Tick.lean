import RoomScript.Proofs.Termination
import Mathlib.Data.List.Nodup

/-!
# The order of a tick

While a tick goes through the slots, the threads that run start, replace and kill one another. A tick is
taken apart here into its turns: which slots have run, and on which interpreters. What a slot holds at any
time is what it held before the tick, or what the last effect of another thread on it has left there, or
what its own turn has left there; and for each slot, the turns of lower slots come before its own and those
of higher slots after it. A fault ends the tick with the turn in which it happens.
-/
namespace RoomScript

/-- The thread of an event that a program has just started. -/
structure Thread.Fresh (p : Program) (t : Thread) : Prop where
  status : t.status = .running
  depth : t.depth = 0
  levelAt : ∀ i, t.levelAt i = {}
  event : ∃ event, p.entry? event = some t.pc ∧ t.callTrace = [event]

theorem Thread.fresh_start {p : Program} {event : UInt8} {entry : Nat}
    (h : p.entry? event = some entry) : (start entry event).Fresh p where
  status := rfl
  depth := rfl
  levelAt i := by simp [levelAt, start]
  event := ⟨event, h, rfl⟩

/-- One thread's share of a tick: a slot and the interpreter on which it runs. -/
structure Turn where
  slot : Slot
  before : Interpreter

namespace Turn

/-- The thread that runs. -/
def thread (τ : Turn) : Thread := τ.before.threads.thread τ.slot

def report (p : Program) (τ : Turn) : Report Outcome := τ.before.runSlot p τ.slot

/-- What the turn does to other threads, first to last. -/
def effects (p : Program) (τ : Turn) : List Effect :=
  (τ.before.machine τ.slot).effects p τ.slot p.stepBudget

/-- What some turns do to threads other than their own, first to last. -/
def effectsOf (p : Program) (ts : List Turn) : List Effect := ts.flatMap (effects p)

/-- The turns of the slots below a slot. -/
def below (slot : Slot) (ts : List Turn) : List Turn := ts.filter (·.slot < slot)

/-- The turns of the slots above a slot. -/
def above (slot : Slot) (ts : List Turn) : List Turn := ts.filter (slot < ·.slot)

variable {slot : Slot} {ts : List Turn}

theorem below_append (slot : Slot) (ts ts' : List Turn) :
    below slot (ts ++ ts') = below slot ts ++ below slot ts' := List.filter_append _ _

theorem above_append (slot : Slot) (ts ts' : List Turn) :
    above slot (ts ++ ts') = above slot ts ++ above slot ts' := List.filter_append _ _

/-- A slot is not above itself. -/
theorem above_cons_self (slot : Slot) (before : Interpreter) (ts : List Turn) :
    above slot (⟨slot, before⟩ :: ts) = above slot ts :=
  List.filter_cons_of_neg fun hlt => Fin.lt_irrefl slot (of_decide_eq_true hlt)

theorem below_of_lt (h : ∀ τ ∈ ts, τ.slot < slot) : below slot ts = ts :=
  List.filter_eq_self.mpr fun τ hτ => decide_eq_true (h τ hτ)

theorem below_of_le (h : ∀ τ ∈ ts, slot ≤ τ.slot) : below slot ts = [] :=
  List.filter_eq_nil_iff.mpr fun τ hτ hlt => Fin.not_lt.mpr (h τ hτ) (of_decide_eq_true hlt)

theorem above_of_lt (h : ∀ τ ∈ ts, slot < τ.slot) : above slot ts = ts :=
  List.filter_eq_self.mpr fun τ hτ => decide_eq_true (h τ hτ)

theorem above_of_le (h : ∀ τ ∈ ts, τ.slot ≤ slot) : above slot ts = [] :=
  List.filter_eq_nil_iff.mpr fun τ hτ hlt => Fin.not_lt.mpr (h τ hτ) (of_decide_eq_true hlt)

end Turn

namespace Interpreter

/-- The turns of some slots that are run one after another, up to the first fault. -/
def turns (p : Program) : List Slot → Interpreter → List Turn
  | [], _ => []
  | slot :: rest, it =>
    if (it.threads.thread slot).isAlive then
      ⟨slot, it⟩ ::
        match (it.runSlot p slot).result with
        | .error _ => []
        | .ok _ => turns p rest (it.runSlot p slot).interpreter
    else
      turns p rest it

/-- The turns of some slots together with what they come to, by how the list of slots goes on. -/
inductive Turns (p : Program) : List Slot → Interpreter → List Turn → Report Unit → Prop
  | done (it : Interpreter) : Turns p [] it [] { interpreter := it, result := .ok () }
  | dead {slot : Slot} {rest : List Slot} {it : Interpreter} {ts : List Turn}
      {report : Report Unit} :
      ¬(it.threads.thread slot).isAlive → Turns p rest it ts report →
      Turns p (slot :: rest) it ts report
  | fault {slot : Slot} {rest : List Slot} {it : Interpreter} {fault : Fault} :
      (it.threads.thread slot).isAlive → (it.runSlot p slot).result = .error fault →
      Turns p (slot :: rest) it [⟨slot, it⟩] { it.runSlot p slot with result := .error fault }
  | next {slot : Slot} {rest : List Slot} {it : Interpreter} {outcome : Outcome} {ts : List Turn}
      {later : Report Unit} :
      (it.threads.thread slot).isAlive → (it.runSlot p slot).result = .ok outcome →
      Turns p rest (it.runSlot p slot).interpreter ts later →
      Turns p (slot :: rest) it (⟨slot, it⟩ :: ts)
        { later with calls := (it.runSlot p slot).calls ++ later.calls }

section

variable {p : Program} {it : Interpreter} {slot k : Slot} {slots as bs : List Slot}
  {ts : List Turn} {report : Report Unit}

theorem turns_spec (p : Program) (slots : List Slot) (it : Interpreter) :
    Turns p slots it (turns p slots it) (tickSlots p slots it) := by
  induction slots generalizing it with
  | nil => exact .done it
  | cons slot rest ih =>
      by_cases ha : (it.threads.thread slot).isAlive
      · cases hr : (it.runSlot p slot).result with
        | error fault =>
            simp only [turns, tickSlots, ha, if_true, hr]
            exact .fault ha hr
        | ok outcome =>
            simp only [turns, tickSlots, ha, if_true, hr]
            exact .next ha hr (ih _)
      · simp only [turns, tickSlots, ha, Bool.false_eq_true, if_false]
        exact .dead ha (ih it)

/-- A run of one slot does to another what its last effect on it does. -/
theorem thread_runSlot_of_ne (ha : (it.threads.thread slot).isAlive) (hk : slot ≠ k) :
    (it.runSlot p slot).interpreter.threads.thread k =
      Effect.after k (Turn.effects p ⟨slot, it⟩) (it.threads.thread k) := by
  rw [runSlot_of_alive ha, threads_reportOf, Pool.thread_put_of_ne hk, Machine.pool_runFor,
    Effect.thread_foldl]
  rfl

/-- A run that does not fail leaves the thread asleep or ends it. -/
theorem thread_runSlot_self (h : it.Reachable fun _ => True)
    (ha : (it.threads.thread slot).isAlive) {outcome : Outcome}
    (ho : (it.runSlot p slot).result = .ok outcome)
    (hk : ((it.runSlot p slot).interpreter.threads.thread slot).isAlive) :
    ((it.runSlot p slot).interpreter.threads.thread slot).status = .suspended := by
  obtain ⟨n, m, result, _, hends⟩ := exists_ends h p ha
  rw [runSlot_of_ends h ha hends] at ho hk ⊢
  rw [threads_reportOf, Pool.thread_put_self] at hk ⊢
  obtain ⟨_, _, _, _, hlast⟩ := hends.split
  have hstop := Machine.stops_of_stopped hlast
  generalize m.thread = t at hstop hk ⊢
  cases hstop with
  | park _ => rfl
  | fail _ => cases ho
  | finish => cases hk

namespace Turns

theorem sublist (h : Turns p slots it ts report) : (ts.map Turn.slot).Sublist slots := by
  induction h with
  | done => exact .slnil
  | dead _ _ ih => exact ih.cons _
  | fault _ _ => exact .cons_cons _ (List.nil_sublist _)
  | next _ _ _ ih => exact ih.cons_cons _

theorem slot_mem (h : Turns p slots it ts report) {τ : Turn} (hτ : τ ∈ ts) : τ.slot ∈ slots :=
  h.sublist.subset (List.mem_map_of_mem hτ)

theorem isAlive (h : Turns p slots it ts report) {τ : Turn} (hτ : τ ∈ ts) : τ.thread.isAlive := by
  induction h with
  | done => cases hτ
  | dead _ _ ih => exact ih hτ
  | fault ha _ =>
      cases List.mem_singleton.mp hτ
      exact ha
  | next ha _ _ ih =>
      rcases List.mem_cons.mp hτ with rfl | hτ
      · exact ha
      · exact ih hτ

/-- Every turn is one that the host could have asked for. -/
theorem reachable {programs : Program → Prop} (h : Turns p slots it ts report)
    (hit : it.Reachable programs) (hp : programs p) {τ : Turn} (hτ : τ ∈ ts) :
    τ.before.Reachable programs := by
  induction h with
  | done => cases hτ
  | dead _ _ ih => exact ih hit hτ
  | fault _ _ =>
      cases List.mem_singleton.mp hτ
      exact hit
  | next _ _ _ ih =>
      rcases List.mem_cons.mp hτ with rfl | hτ
      · exact hit
      · exact ih (hit.runSlot hp _) hτ

theorem result_ok (h : Turns p slots it ts report) (hok : report.result = .ok ()) {τ : Turn}
    (hτ : τ ∈ ts) : ∃ outcome, (τ.report p).result = .ok outcome := by
  induction h with
  | done => cases hτ
  | dead _ _ ih => exact ih hok hτ
  | fault _ _ => cases hok
  | next _ ho _ ih =>
      rcases List.mem_cons.mp hτ with rfl | hτ
      · exact ⟨_, ho⟩
      · exact ih hok hτ

/-- A tick that fails does so in its last turn. -/
theorem exists_last (h : Turns p slots it ts report) {fault : Fault}
    (hf : report.result = .error fault) :
    ∃ done last, ts = done ++ [last] ∧ (last.report p).result = .error fault := by
  induction h with
  | done => cases hf
  | dead _ _ ih => exact ih hf
  | fault _ hfault =>
      cases hf
      exact ⟨[], _, rfl, hfault⟩
  | next _ _ _ ih =>
      obtain ⟨done, last, rfl, hlast⟩ := ih hf
      exact ⟨_ :: done, last, rfl, hlast⟩

/-- A slot without a turn holds what the last effect on it has left there, if there was one. -/
theorem thread_of_notMem (h : Turns p slots it ts report) (hk : k ∉ slots) :
    report.interpreter.threads.thread k =
      Effect.after k (Turn.effectsOf p ts) (it.threads.thread k) := by
  induction h with
  | done => rfl
  | dead _ _ ih => exact ih (List.not_mem_of_not_mem_cons hk)
  | fault ha _ =>
      rw [thread_runSlot_of_ne ha (List.ne_of_not_mem_cons hk).symm]
      simp [Turn.effectsOf]
  | next ha _ _ ih =>
      rw [ih (List.not_mem_of_not_mem_cons hk),
        thread_runSlot_of_ne ha (List.ne_of_not_mem_cons hk).symm, ← Effect.after_append]
      rfl

/-- The slots of the first part of a list have their turns first, and only if none of them fails do the
other ones. -/
theorem split (h : Turns p (as ++ bs) it ts report) :
    ∃ ts₁ report₁, Turns p as it ts₁ report₁ ∧
      ((∃ fault, report₁.result = .error fault ∧ report.result = .error fault ∧ ts = ts₁ ∧
          report.interpreter = report₁.interpreter) ∨
        ∃ ts₂ report₂, report₁.result = .ok () ∧ Turns p bs report₁.interpreter ts₂ report₂ ∧
          ts = ts₁ ++ ts₂ ∧ report.interpreter = report₂.interpreter ∧
          report.result = report₂.result) := by
  induction as generalizing it ts report with
  | nil => exact ⟨[], _, .done it, .inr ⟨ts, report, rfl, h, rfl, rfl, rfl⟩⟩
  | cons slot as ih =>
      cases h with
      | dead ha h =>
          obtain ⟨ts₁, report₁, h₁, hrest⟩ := ih h
          exact ⟨ts₁, report₁, .dead ha h₁, hrest⟩
      | fault ha hf => exact ⟨_, _, .fault ha hf, .inl ⟨_, rfl, rfl, rfl, rfl⟩⟩
      | next ha ho h =>
          obtain ⟨ts₁, report₁, h₁, hrest⟩ := ih h
          refine ⟨_, _, .next ha ho h₁, ?_⟩
          rcases hrest with ⟨fault, hf₁, hf, rfl, hit⟩ | ⟨ts₂, report₂, hok, h₂, rfl, hit, hres⟩
          · exact .inl ⟨fault, hf₁, hf, rfl, hit⟩
          · exact .inr ⟨ts₂, report₂, hok, h₂, rfl, hit, hres⟩

end Turns

/-- The thread that a slot holds when its turn comes: what the last effect of a lower slot has left there,
or else what it held before the tick. -/
def due (p : Program) (it : Interpreter) (k : Slot) (ts : List Turn) : Thread :=
  Effect.after k (Turn.effectsOf p (Turn.below k ts)) (it.threads.thread k)

/-- How a tick comes past a slot. -/
inductive Passes (p : Program) (it : Interpreter) (k : Slot) (ts : List Turn)
    (report : Report Unit) : Prop
  /-- It fails in a lower slot. -/
  | missed :
      report.result ≠ .ok () → (∀ τ ∈ ts, τ.slot < k) →
      report.interpreter.threads.thread k =
        Effect.after k (Turn.effectsOf p ts) (it.threads.thread k) →
      Passes p it k ts report
  | vacant :
      ¬(it.due p k ts).isAlive → (∀ τ ∈ ts, τ.slot ≠ k) →
      report.interpreter.threads.thread k =
        Effect.after k (Turn.effectsOf p (Turn.above k ts)) (it.due p k ts) →
      Passes p it k ts report
  | ran {before : Interpreter} :
      ⟨k, before⟩ ∈ ts → before.threads.thread k = it.due p k ts →
      report.interpreter.threads.thread k =
        Effect.after k (Turn.effectsOf p (Turn.above k ts))
          ((before.runSlot p k).interpreter.threads.thread k) →
      Passes p it k ts report

/-- The slots before and after a slot in the list of all slots. -/
theorem exists_split (k : Slot) : ∃ as bs : List Slot, List.finRange maxThreads = as ++ k :: bs ∧
    (∀ i ∈ as, i < k) ∧ ∀ i ∈ bs, k < i := by
  obtain ⟨as, bs, h⟩ := List.append_of_mem (List.mem_finRange k)
  have hsorted := List.pairwise_lt_finRange maxThreads
  rw [h, List.pairwise_append, List.pairwise_cons] at hsorted
  exact ⟨as, bs, h, fun i hi => hsorted.2.2 i hi k List.mem_cons_self, hsorted.2.1.1⟩

theorem Turns.passes (h : Turns p (List.finRange maxThreads) it ts report) (k : Slot) :
    Passes p it k ts report := by
  obtain ⟨as, bs, hslots, has, hbs⟩ := exists_split k
  rw [hslots] at h
  have hka : k ∉ as := fun hk => Fin.lt_irrefl k (has k hk)
  have hkb : k ∉ bs := fun hk => Fin.lt_irrefl k (hbs k hk)
  obtain ⟨ts₁, report₁, h₁, hrest⟩ := h.split
  have hlow : ∀ τ ∈ ts₁, τ.slot < k := fun τ hτ => has _ (h₁.slot_mem hτ)
  have hthread := h₁.thread_of_notMem hka
  rcases hrest with ⟨fault, _, hf, rfl, hit⟩ | ⟨ts₂, report₂, _, h₂, rfl, hit, hres⟩
  · exact .missed (fun hok => by cases hf.symm.trans hok) hlow (hit ▸ hthread)
  · have hhigh : ∀ τ ∈ ts₂, k ≤ τ.slot := by
      intro τ hτ
      rcases List.mem_cons.mp (h₂.slot_mem hτ) with heq | hmem
      · exact Fin.le_of_eq heq.symm
      · exact Fin.le_of_lt (hbs _ hmem)
    have hdue : report₁.interpreter.threads.thread k = it.due p k (ts₁ ++ ts₂) := by
      rw [due, Turn.below_append, Turn.below_of_lt hlow, Turn.below_of_le hhigh, List.append_nil]
      exact hthread
    have habove : Turn.above k (ts₁ ++ ts₂) = Turn.above k ts₂ := by
      rw [Turn.above_append, Turn.above_of_le fun τ hτ => Fin.le_of_lt (hlow τ hτ), List.nil_append]
    cases h₂ with
    | dead hd h₃ =>
        have hafter : ∀ τ ∈ ts₂, k < τ.slot := fun τ hτ => hbs _ (h₃.slot_mem hτ)
        refine .vacant (hdue ▸ hd) ?_ ?_
        · intro τ hτ
          rcases List.mem_append.mp hτ with hτ | hτ
          · exact Fin.ne_of_lt (hlow τ hτ)
          · exact Fin.ne_of_gt (hafter τ hτ)
        · rw [habove, Turn.above_of_lt hafter, ← hdue, hit]
          exact h₃.thread_of_notMem hkb
    | fault ha hf =>
        refine .ran (List.mem_append_right _ List.mem_cons_self) hdue ?_
        rw [habove, Turn.above_cons_self, hit]
        rfl
    | @next _ _ _ outcome ts₃ later ha ho h₃ =>
        refine .ran (List.mem_append_right _ List.mem_cons_self) hdue ?_
        have hafter : ∀ τ ∈ ts₃, k < τ.slot := fun τ hτ => hbs _ (h₃.slot_mem hτ)
        rw [habove, Turn.above_cons_self, Turn.above_of_lt hafter, hit]
        exact h₃.thread_of_notMem hkb

/-- A tick gets as far as a slot, unless a lower slot fails. -/
def GetsTo (k : Slot) (ts : List Turn) (report : Report Unit) : Prop :=
  report.result = .ok () ∨ ∃ τ ∈ ts, k ≤ τ.slot

/-- Who runs in a tick, in which order, and what is left of whom: what a tick comes to, told by its
turns. -/
structure InOrder (p : Program) (it : Interpreter) (ts : List Turn) (report : Report Unit) :
    Prop where
  /-- No slot has two turns, and lower slots have theirs first. -/
  order : ts.Pairwise (·.slot < ·.slot)
  /-- In a turn the live thread runs that the slot then holds. -/
  thread : ∀ τ ∈ ts, τ.thread.isAlive ∧ τ.thread = it.due p τ.slot ts
  /-- A turn has effects on other slots only. -/
  others : ∀ τ ∈ ts, ∀ e ∈ τ.effects p, e.slot ≠ τ.slot
  /-- A thread that is alive before the tick runs, unless a lower slot kills or replaces it. -/
  alive : ∀ k, GetsTo k ts report → (it.threads.thread k).isAlive →
    (∀ e ∈ Turn.effectsOf p (Turn.below k ts), e.slot ≠ k) →
    ∃ τ ∈ ts, τ.slot = k ∧ τ.thread = it.threads.thread k
  /-- An event that a lower slot starts runs in the same tick, unless it is killed or replaced before its
  turn. -/
  started : ∀ k entry event, GetsTo k ts report →
    Effect.last? k (Turn.effectsOf p (Turn.below k ts)) = some (.start k entry event) →
    ∃ τ ∈ ts, τ.slot = k ∧ τ.thread = Thread.start entry event
  /-- A slot in which a higher one starts an event does not run any more. -/
  behind : ∀ done τ later, ts = done ++ τ :: later → ∀ e ∈ τ.effects p, e.slot < τ.slot →
    ∀ τ' ∈ later, τ'.slot ≠ e.slot
  /-- After the tick all live threads sleep but those that a higher slot has started. -/
  parked : report.result = .ok () → ∀ k, (report.interpreter.threads.thread k).isAlive →
    (report.interpreter.threads.thread k).status = .suspended ∨
      ∃ entry event,
        Effect.last? k (Turn.effectsOf p (Turn.above k ts)) = some (.start k entry event)
  fresh : report.result = .ok () → ∀ k entry event,
    Effect.last? k (Turn.effectsOf p (Turn.above k ts)) = some (.start k entry event) →
    report.interpreter.threads.thread k = Thread.start entry event ∧
      (report.interpreter.threads.thread k).Fresh p
  /-- The turn that fails is the last one. Slots above it hold what they held before, or what the last
  effect on them has left there. -/
  failed : ∀ fault, report.result = .error fault →
    ∃ τ ∈ ts, (τ.report p).result = .error fault ∧ (∀ τ' ∈ ts, τ'.slot ≤ τ.slot) ∧
      ∀ k, τ.slot < k → report.interpreter.threads.thread k =
        Effect.after k (Turn.effectsOf p ts) (it.threads.thread k)

theorem entry?_of_last? {entry : Nat} {event : UInt8}
    (h : Effect.last? k (Turn.effectsOf p ts) = some (.start k entry event)) :
    p.entry? event = some entry := by
  obtain ⟨τ, _, hmem⟩ := List.mem_flatMap.mp (Effect.mem_of_last? h).1
  exact Machine.entry?_of_mem_effects hmem

namespace Turns

variable (h : Turns p (List.finRange maxThreads) it ts report)
include h

theorem order : ts.Pairwise (·.slot < ·.slot) := by
  have hslots := (List.pairwise_lt_finRange maxThreads).sublist h.sublist
  exact List.pairwise_map.mp hslots

/-- A slot has one turn only. -/
theorem eq_of_slot_eq {τ τ' : Turn} (hτ : τ ∈ ts) (hτ' : τ' ∈ ts) (hs : τ.slot = τ'.slot) :
    τ = τ' := by
  have hnodup : (ts.map Turn.slot).Nodup := (List.nodup_finRange _).sublist h.sublist
  exact List.inj_on_of_nodup_map hnodup hτ hτ' hs

/-- Every slot to which the tick gets and which holds a live thread then runs it. -/
theorem exists_turn (hk : GetsTo k ts report) (ha : (it.due p k ts).isAlive) :
    ∃ τ ∈ ts, τ.slot = k ∧ τ.thread = it.due p k ts := by
  cases h.passes k with
  | missed hf hlow _ =>
      rcases hk with hok | ⟨τ, hτ, hle⟩
      · exact absurd hok hf
      · exact absurd (hlow τ hτ) (Fin.not_lt.mpr hle)
  | vacant hd _ _ => exact absurd ha hd
  | ran hmem hthread _ => exact ⟨_, hmem, rfl, hthread⟩

theorem thread_eq_due {τ : Turn} (hτ : τ ∈ ts) : τ.thread = it.due p τ.slot ts := by
  cases h.passes τ.slot with
  | missed _ hlow _ => exact absurd (hlow τ hτ) (Fin.lt_irrefl _)
  | vacant _ hnone _ => exact absurd rfl (hnone τ hτ)
  | ran hmem hthread _ =>
      have heq := h.eq_of_slot_eq hτ hmem rfl
      rw [Turn.thread, heq]
      exact hthread

theorem parked (hit : it.Reachable fun _ => True) (hok : report.result = .ok ())
    (ha : (report.interpreter.threads.thread k).isAlive) :
    (report.interpreter.threads.thread k).status = .suspended ∨
      ∃ entry event,
        Effect.last? k (Turn.effectsOf p (Turn.above k ts)) = some (.start k entry event) := by
  cases h.passes k with
  | missed hf _ _ => exact absurd hok hf
  | vacant hd _ hk =>
      rw [hk] at ha
      rcases Effect.after_of_isAlive ha with hsame | hstart
      · exact absurd (hsame ▸ ha) hd
      · exact .inr hstart
  | @ran before hmem _ hk =>
      rw [hk] at ha
      rcases Effect.after_of_isAlive ha with hsame | hstart
      · obtain ⟨outcome, ho⟩ := h.result_ok hok hmem
        rw [hk, hsame]
        exact .inl (thread_runSlot_self (h.reachable hit trivial hmem) (h.isAlive hmem) ho
          (hsame ▸ ha))
      · exact .inr hstart

theorem fresh (hok : report.result = .ok ()) {entry : Nat} {event : UInt8}
    (hl : Effect.last? k (Turn.effectsOf p (Turn.above k ts)) = some (.start k entry event)) :
    report.interpreter.threads.thread k = Thread.start entry event ∧
      (report.interpreter.threads.thread k).Fresh p := by
  have hthread : report.interpreter.threads.thread k = Thread.start entry event := by
    cases h.passes k with
    | missed hf _ _ => exact absurd hok hf
    | vacant _ _ hk => exact hk.trans (Effect.after_of_last? hl _)
    | ran _ _ hk => exact hk.trans (Effect.after_of_last? hl _)
  exact ⟨hthread, hthread ▸ Thread.fresh_start (entry?_of_last? hl)⟩

theorem failed {fault : Fault} (hf : report.result = .error fault) :
    ∃ τ ∈ ts, (τ.report p).result = .error fault ∧ (∀ τ' ∈ ts, τ'.slot ≤ τ.slot) ∧
      ∀ k, τ.slot < k → report.interpreter.threads.thread k =
        Effect.after k (Turn.effectsOf p ts) (it.threads.thread k) := by
  obtain ⟨done, last, rfl, hlast⟩ := h.exists_last hf
  have hupto : ∀ τ ∈ done ++ [last], τ.slot ≤ last.slot := by
    intro τ hτ
    rcases List.mem_append.mp hτ with hτ | hτ
    · exact Fin.le_of_lt ((List.pairwise_append.mp h.order).2.2 τ hτ last List.mem_cons_self)
    · exact Fin.le_of_eq (congrArg Turn.slot (List.mem_singleton.mp hτ))
  refine ⟨last, List.mem_append_right _ List.mem_cons_self, hlast, hupto, fun k hk => ?_⟩
  have hlow : ∀ τ ∈ done ++ [last], τ.slot < k := fun τ hτ => Fin.lt_of_le_of_lt (hupto τ hτ) hk
  cases h.passes k with
  | missed _ _ hthread => exact hthread
  | vacant _ _ hthread =>
      rw [hthread, due, Turn.below_of_lt hlow,
        Turn.above_of_le fun τ hτ => Fin.le_of_lt (hlow τ hτ)]
      rfl
  | ran hmem _ _ => exact absurd (hlow _ hmem) (Fin.lt_irrefl k)

end Turns

/-- Whatever programs an interpreter has run before, and whatever program the tick runs: every slot has its
turn in order, with the thread that it holds then. -/
theorem Reachable.tick_in_order (h : it.Reachable fun _ => True) (p : Program) :
    Turns p (List.finRange maxThreads) it (turns p (List.finRange maxThreads) it) (it.tick p) ∧
      InOrder p it (turns p (List.finRange maxThreads) it) (it.tick p) := by
  have hts : Turns p (List.finRange maxThreads) it (turns p (List.finRange maxThreads) it)
      (it.tick p) := turns_spec p _ it
  generalize turns p (List.finRange maxThreads) it = ts at hts ⊢
  refine ⟨hts, ?_⟩
  exact {
    order := hts.order
    thread := fun τ hτ => ⟨hts.isAlive hτ, hts.thread_eq_due hτ⟩
    others := fun τ _ e he => Machine.slot_effects_ne he
    alive := fun k hk ha hnone => by
      have hdue : it.due p k ts = it.threads.thread k := Effect.after_of_untouched hnone _
      rw [← hdue] at ha ⊢
      exact hts.exists_turn hk ha
    started := fun k entry event hk hl => by
      have hdue : it.due p k ts = Thread.start entry event := Effect.after_of_last? hl _
      rw [← hdue]
      exact hts.exists_turn hk (hdue ▸ rfl)
    behind := fun done τ later hsplit e _ he τ' hτ' heq => by
      have horder := hts.order
      rw [hsplit, List.pairwise_append, List.pairwise_cons] at horder
      have hlt := horder.2.1.1 τ' hτ'
      rw [heq] at hlt
      exact Fin.lt_asymm hlt he
    parked := fun hok k ha => hts.parked h hok ha
    fresh := fun hok k entry event hl => hts.fresh hok hl
    failed := fun fault hf => hts.failed hf }

/-- Two events that start a third one, the first in a slot that is still to run in the same tick, the
second in its own predecessor's slot. -/
def relay : Program :=
  .ofFunctions [[Line.evtExec 2 2, .evtEnd].flatMap Line.encode,
    [Line.evtExec 0 2, .evtEnd].flatMap Line.encode, (Line.sleep 1).flatMap Line.encode]

theorem tick_in_order_relay :
    let first := (({} : Interpreter).serve relay (.startEvent 0)).interpreter
    let it := (first.serve relay (.startEvent 1)).interpreter
    (turns relay (List.finRange maxThreads) it).map Turn.slot = [0, 1, 2] ∧
      (it.tick relay).result = .ok () ∧
      ((it.tick relay).interpreter.threads.thread 0).status = .running ∧
      ((it.tick relay).interpreter.threads.thread 2).status = .suspended ∧
      Turns relay (List.finRange maxThreads) it (turns relay (List.finRange maxThreads) it)
        (it.tick relay) ∧
      InOrder relay it (turns relay (List.finRange maxThreads) it) (it.tick relay) := by
  intro first it
  have hit : it.Reachable fun _ => True :=
    .serve (.startEvent 1) trivial (.serve (.startEvent 0) trivial .fresh)
  refine ⟨?_, ?_, ?_, ?_, Reachable.tick_in_order hit relay⟩
  all_goals decide +kernel

end

end Interpreter

end RoomScript
