import RoomScript.Proofs.Dispatch.Moves
import Mathlib.Data.List.Induction
import Mathlib.Tactic.SplitIfs

/-!
# What a thread does to the others

One iteration of the dispatch loop starts an event in another slot, kills the thread of another slot, or
leaves the pool as it is; which of these it is can be read off the machine in front of it. The slot holds
the started event or nothing afterwards, whatever was there. Of a run only the last effect on a slot
counts. A thread ends itself only by an instruction that says so.
-/
namespace RoomScript

/-- What one iteration can do to the thread of another slot. -/
inductive Effect where
  | start (slot : Slot) (entry : Nat) (event : UInt8)
  | kill (slot : Slot)
  deriving DecidableEq

/-- The machine that a step leaves behind. -/
def Progress.machine : Progress → Machine
  | .running m => m
  | .stopped m _ => m

namespace Effect

/-- The slot that is affected. -/
def slot : Effect → Slot
  | .start slot _ _ => slot
  | .kill slot => slot

/-- What the slot holds afterwards. -/
def thread : Effect → Thread
  | .start _ entry event => Thread.start entry event
  | .kill _ => Thread.dead

def apply (pool : Pool) (e : Effect) : Pool := pool.put e.slot e.thread

/-- The last effect on a slot. -/
def last? (slot : Slot) (es : List Effect) : Option Effect := (es.filter (·.slot = slot)).getLast?

/-- What a slot holds after some effects, when it held a thread before them. -/
def after (slot : Slot) (es : List Effect) (t : Thread) : Thread := (last? slot es).elim t thread

variable {slot : Slot} {e : Effect} {es es' : List Effect}

theorem last?_append (slot : Slot) (es es' : List Effect) :
    last? slot (es ++ es') = (last? slot es').or (last? slot es) := by
  simp only [last?, List.filter_append, List.getLast?_append]

theorem last?_singleton_self (e : Effect) : last? e.slot [e] = some e := by
  simp [last?]

theorem last?_singleton_of_ne (h : e.slot ≠ slot) : last? slot [e] = none := by
  simp [last?, h]

theorem last?_eq_none_iff : last? slot es = none ↔ ∀ e ∈ es, e.slot ≠ slot := by
  simp [last?]

theorem mem_of_last? (h : last? slot es = some e) : e ∈ es ∧ e.slot = slot := by
  simpa using List.mem_of_getLast? h

theorem after_append (slot : Slot) (es es' : List Effect) (t : Thread) :
    after slot (es ++ es') t = after slot es' (after slot es t) := by
  rw [after, last?_append]
  cases h : last? slot es' <;> simp [after, h]

theorem after_of_untouched (h : ∀ e ∈ es, e.slot ≠ slot) (t : Thread) : after slot es t = t := by
  rw [after, last?_eq_none_iff.mpr h]
  rfl

theorem after_of_last? (h : last? slot es = some e) (t : Thread) : after slot es t = e.thread := by
  rw [after, h]
  rfl

/-- A slot that holds a live thread after some effects holds the one it held before or one of them has
started it. -/
theorem after_of_isAlive {t : Thread} (h : (after slot es t).isAlive) :
    after slot es t = t ∨ ∃ entry event, last? slot es = some (.start slot entry event) := by
  cases hl : last? slot es with
  | none =>
      rw [after, hl]
      exact .inl rfl
  | some e =>
      have hslot := (mem_of_last? hl).2
      subst hslot
      rw [after_of_last? hl] at h
      cases e with
      | start place entry event => exact .inr ⟨entry, event, rfl⟩
      | kill target => cases h

/-- Of all effects a slot only keeps the last one on it. -/
theorem thread_foldl (pool : Pool) (slot : Slot) (es : List Effect) :
    (es.foldl apply pool).thread slot = after slot es (pool.thread slot) := by
  induction es using List.reverseRecOn with
  | nil => rfl
  | append_singleton es e ih =>
      rw [List.foldl_append, after_append, ← ih]
      by_cases he : e.slot = slot
      · subst he
        rw [after, last?_singleton_self]
        exact Pool.thread_put_self _ _ _
      · rw [after, last?_singleton_of_ne he]
        exact Pool.thread_put_of_ne he _

end Effect

namespace Pool

variable {pool : Pool} {running : Option Slot} {requested : UInt8} {place : Slot}

@[simp] theorem slot?_val (slot : Slot) : slot? slot.val = some slot :=
  dif_pos slot.isLt

theorem val_of_slot? {number : Nat} {slot : Slot} (h : slot? number = some slot) :
    number = slot.val := by
  unfold slot? at h
  split at h <;> cases h
  rfl

/-- An event is placed in the slot that was named or in one without a live thread, and never in the slot
that is running. -/
theorem place?_eq_some (h : pool.place? running requested = some place) :
    running ≠ some place ∧
      (requested.toNat = place.val ∨ requested = anySlot ∧ ¬(pool.thread place).isAlive) := by
  unfold place? at h
  split at h
  · rename_i hany
    have hfound := List.find?_some h
    simp only [decide_eq_true_eq, Bool.not_eq_true'] at hfound
    exact ⟨hfound.1, .inr ⟨hany, by simp [hfound.2]⟩⟩
  · obtain ⟨hslot, hfree⟩ := Option.filter_eq_some_iff.mp h
    exact ⟨of_decide_eq_true hfree, .inl (val_of_slot? hslot)⟩

end Pool

/-- What an event command of the thread in slot `running` does to the pool, if anything. -/
def EventCommand.effect? (p : Program) (running : Slot) (pool : Pool) :
    EventCommand → Option Effect
  | .exec requested event =>
    (p.entry? event).bind fun entry =>
      (pool.place? (some running) requested).map fun place => .start place entry event
  | .kill number =>
    (Pool.slot? number.toNat).bind fun target =>
      if target = running then none else some (.kill target)

namespace EventCommand

variable {p : Program} {running : Slot} {pool : Pool} {c : EventCommand}

theorem effect?_start {place : Slot} {entry : Nat} {event : UInt8}
    (h : c.effect? p running pool = some (.start place entry event)) :
    ∃ requested, c = .exec requested event ∧ p.entry? event = some entry ∧
      pool.place? (some running) requested = some place := by
  cases c with
  | exec requested _ =>
      simp only [effect?, Option.bind_eq_some_iff, Option.map_eq_some_iff] at h
      obtain ⟨_, he, _, hp, hstart⟩ := h
      cases hstart
      exact ⟨requested, rfl, he, hp⟩
  | kill number =>
      simp only [effect?, Option.bind_eq_some_iff] at h
      obtain ⟨_, _, hkill⟩ := h
      split_ifs at hkill
      cases hkill

theorem effect?_kill {target : Slot} (h : c.effect? p running pool = some (.kill target)) :
    ∃ number : UInt8, c = .kill number ∧ number.toNat = target.val ∧ target ≠ running := by
  cases c with
  | exec requested _ =>
      simp only [effect?, Option.bind_eq_some_iff, Option.map_eq_some_iff] at h
      obtain ⟨_, _, _, _, hkill⟩ := h
      cases hkill
  | kill number =>
      simp only [effect?, Option.bind_eq_some_iff] at h
      obtain ⟨_, hslot, hkill⟩ := h
      split_ifs at hkill with hne
      cases hkill
      exact ⟨number, rfl, Pool.val_of_slot? hslot, hne⟩

theorem slot_effect?_ne {e : Effect} (h : c.effect? p running pool = some e) :
    e.slot ≠ running := by
  cases e with
  | start place entry event =>
      obtain ⟨_, _, _, hp⟩ := effect?_start h
      exact fun he => (Pool.place?_eq_some hp).1 (congrArg some he.symm)
  | kill target =>
      obtain ⟨_, _, _, hne⟩ := effect?_kill h
      exact hne

theorem pool_run {pool' : Pool} {signal : Signal} (h : c.run p running pool = .ok (pool', signal)) :
    pool' = (c.effect? p running pool).elim pool (Effect.apply pool) := by
  cases c with
  | exec requested event =>
      simp only [run] at h
      split at h
      · cases h
      · rename_i entry he
        simp only [effect?, he, Option.bind_some]
        split at h
        · rename_i place hp
          cases h
          rw [hp]
          rfl
        · rename_i hp
          cases h
          rw [hp]
          rfl
  | kill number =>
      simp only [run] at h
      split_ifs at h with hn
      · cases h
        rw [effect?, hn, Pool.slot?_val, Option.bind_some, if_pos rfl]
        rfl
      · split at h
        · rename_i target ht
          cases h
          have hne : target ≠ running := fun he => hn (he ▸ Pool.val_of_slot? ht)
          rw [effect?, ht, Option.bind_some, if_neg hne]
          rfl
        · rename_i ht
          cases h
          rw [effect?, ht]
          rfl

theorem effect?_of_error {fault : Fault} (h : c.run p running pool = .error fault) :
    c.effect? p running pool = none := by
  obtain ⟨_, _, rfl, he, _⟩ := fault_of_run h
  simp [effect?, he]

end EventCommand

namespace Machine

variable {p : Program} {slot : Slot} {m m' : Machine} {e : Effect}

/-- What the next iteration does to the pool, if anything. -/
def effect? (p : Program) (slot : Slot) (m : Machine) : Option Effect :=
  match p.instructionAt m.thread.pc with
  | .error _ => none
  | .ok i =>
    match Command.ofInstruction i with
    | .event c => c.effect? p slot m.pool
    | _ => none

theorem effect?_eq_some (h : m.effect? p slot = some e) :
    ∃ i c, p.instructionAt m.thread.pc = .ok i ∧ Command.ofInstruction i = .event c ∧
      c.effect? p slot m.pool = some e := by
  unfold effect? at h
  split at h
  · cases h
  · rename_i i hi
    split at h
    · rename_i c hc
      exact ⟨i, c, hi, hc, h⟩
    · cases h

/-- What the loop does after an instruction, it does to the thread. -/
theorem machine_settle (position : Nat) (m : Machine) (result : Except Fault Signal) :
    ∃ thread, (m.settle position result).machine = { m with thread } := by
  cases result with
  | error fault => exact ⟨_, rfl⟩
  | ok signal =>
      cases signal with
      | conditionFalse =>
          simp only [settle, unwind]
          split
          · exact ⟨_, rfl⟩
          · split
            · exact ⟨_, rfl⟩
            · exact ⟨_, rfl⟩
      | _ => exact ⟨_, rfl⟩

theorem pool_settle (position : Nat) (m : Machine) (result : Except Fault Signal) :
    (m.settle position result).machine.pool = m.pool := by
  obtain ⟨_, h⟩ := machine_settle position m result
  rw [h]

theorem store_settle (position : Nat) (m : Machine) (result : Except Fault Signal) :
    (m.settle position result).machine.store = m.store := by
  obtain ⟨_, h⟩ := machine_settle position m result
  rw [h]

/-- An iteration changes the pool by its effect and in no other way. -/
theorem pool_step (p : Program) (slot : Slot) (m : Machine) :
    (m.step p slot).machine.pool = (m.effect? p slot).elim m.pool (Effect.apply m.pool) := by
  cases hi : p.instructionAt m.thread.pc with
  | error cause =>
      simp only [effect?, hi, Option.elim_none]
      cases cause with
      | unknownOpcode byte => rw [step_unknown hi]; rfl
      | _ => rw [step_undecodable hi (by simp)]; rfl
  | ok i =>
      simp only [effect?, hi]
      rw [step_instruction hi, pool_settle]
      cases Command.ofInstruction i with
      | flow c =>
          simp only [execute]
          split <;> rfl
      | data c => rfl
      | switch id length => rfl
      | world i =>
          simp only [execute]
          split <;> rfl
      | event c =>
          simp only [execute, goto]
          split
          · rename_i hr
            exact EventCommand.pool_run hr
          · rename_i hr
            rw [EventCommand.effect?_of_error hr]
            rfl

/-- What the iterations of a run do to the pool, first to last. -/
def effects (p : Program) (slot : Slot) : (budget : Nat) → Machine → List Effect
  | 0, _ => []
  | budget + 1, m =>
    (m.effect? p slot).toList ++
      match m.step p slot with
      | .running m' => effects p slot budget m'
      | .stopped _ _ => []

theorem pool_runFor (p : Program) (slot : Slot) (budget : Nat) (m : Machine) :
    (m.runFor p slot budget).1.pool = (m.effects p slot budget).foldl Effect.apply m.pool := by
  induction budget generalizing m with
  | zero => rfl
  | succ budget ih =>
      have hstep := pool_step p slot m
      have hfirst : (m.effect? p slot).toList.foldl Effect.apply m.pool =
          (m.effect? p slot).elim m.pool (Effect.apply m.pool) := by
        cases m.effect? p slot <;> rfl
      rw [effects, List.foldl_append, hfirst, ← hstep]
      cases hs : m.step p slot with
      | running m' =>
          rw [runFor_of_running hs]
          exact ih m'
      | stopped m' result =>
          rw [runFor_of_stopped hs]
          rfl

/-- Every effect of a run is that of one of its iterations. -/
theorem exists_steps_of_mem_effects {budget : Nat} (h : e ∈ m.effects p slot budget) :
    ∃ n m', Steps p slot n m m' ∧ m'.effect? p slot = some e := by
  induction budget generalizing m with
  | zero => cases h
  | succ budget ih =>
      rw [effects] at h
      rcases List.mem_append.mp h with h | h
      · exact ⟨0, m, .refl m, Option.mem_toList.mp h⟩
      · split at h
        · rename_i next hs
          obtain ⟨n, m', hsteps, he⟩ := ih h
          exact ⟨n + 1, m', .step hs hsteps, he⟩
        · cases h

/-- No thread has an effect on its own slot. -/
theorem slot_effects_ne {budget : Nat} (h : e ∈ m.effects p slot budget) : e.slot ≠ slot := by
  obtain ⟨_, _, _, he⟩ := exists_steps_of_mem_effects h
  obtain ⟨_, _, _, _, he⟩ := effect?_eq_some he
  exact EventCommand.slot_effect?_ne he

/-- Events are started at their entry points. -/
theorem entry?_of_mem_effects {budget : Nat} {place : Slot} {entry : Nat} {event : UInt8}
    (h : .start place entry event ∈ m.effects p slot budget) : p.entry? event = some entry := by
  obtain ⟨_, _, _, he⟩ := exists_steps_of_mem_effects h
  obtain ⟨_, _, _, _, he⟩ := effect?_eq_some he
  obtain ⟨_, _, hentry, _⟩ := EventCommand.effect?_start he
  exact hentry

theorem settle_eq_terminated {position : Nat} {result : Except Fault Signal}
    (h : m.settle position result = .stopped m' (.ok .terminated)) : result = .ok .finish := by
  cases result with
  | error fault => cases h
  | ok signal =>
      cases signal with
      | finish => rfl
      | proceed => cases h
      | yield => cases h
      | conditionFalse =>
          simp only [settle, unwind] at h
          split at h
          · cases h
          · split at h <;> cases h

/-- The commands that end the thread that carries them out at a call depth: the end of the event itself,
and a kill of the thread's own slot. -/
inductive Finishes (slot : Slot) (depth : Fin maxCallLevels) : Command → Prop
  | endEvent : depth.val = 0 → Finishes slot depth (.flow .endEvent)
  | kill {number : UInt8} : number.toNat = slot.val → Finishes slot depth (.event (.kill number))

theorem finishes_of_flow {position : Nat} {t t' : Thread} {c : FlowCommand}
    (h : c.run p position t = .ok (t', .finish)) : Finishes slot t.depth (.flow c) := by
  cases c with
  | endEvent =>
      simp only [FlowCommand.run] at h
      split at h
      · exact .endEvent ‹_›
      · simp only [Thread.leave] at h
        split at h <;> cases h
  | _ =>
      simp only [FlowCommand.run, Thread.leave, Thread.openIf, Thread.closeIf, Thread.openLoop] at h
      grind

theorem finishes_of_event {pool pool' : Pool} {depth : Fin maxCallLevels} {c : EventCommand}
    (h : c.run p slot pool = .ok (pool', .finish)) : Finishes slot depth (.event c) := by
  cases c with
  | exec requested event =>
      simp only [EventCommand.run] at h
      split at h
      · cases h
      · split at h <;> cases h
  | kill number =>
      simp only [EventCommand.run] at h
      split at h
      · exact .kill ‹_›
      · split at h <;> cases h

theorem finishes_of_execute {position : Nat} {c : Command}
    (h : (m.execute p slot position c).2 = .ok .finish) : Finishes slot m.thread.depth c := by
  cases c with
  | flow c =>
      simp only [execute] at h
      split at h
      · rename_i hr
        cases h
        exact finishes_of_flow hr
      · cases h
  | data c =>
      simp only [execute] at h
      rcases c.signal_of_run h with hs | hs <;> cases hs
  | event c =>
      simp only [execute] at h
      split at h
      · rename_i hr
        cases h
        exact finishes_of_event hr
      · cases h
  | switch id length =>
      simp only [execute] at h
      cases hr : (m.thread.switch p.code position (m.store.readVar id).1 length).2 <;>
        simp [hr, Except.map] at h
  | world i =>
      simp only [execute] at h
      split at h <;> cases h

theorem finishes_of_terminated (h : m.step p slot = .stopped m' (.ok .terminated)) :
    ∃ i, p.instructionAt m.thread.pc = .ok i ∧
      Finishes slot m.thread.depth (Command.ofInstruction i) := by
  cases hi : p.instructionAt m.thread.pc with
  | error cause =>
      cases cause with
      | unknownOpcode byte => rw [step_unknown hi] at h; cases h
      | _ => rw [step_undecodable hi (by simp)] at h; cases h
  | ok i =>
      rw [step_instruction hi] at h
      have hf := finishes_of_execute (settle_eq_terminated h)
      exact ⟨i, rfl, hf⟩

end Machine

end RoomScript
