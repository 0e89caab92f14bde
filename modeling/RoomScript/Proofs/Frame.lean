import RoomScript.Proofs.Dispatch.Visits
import RoomScript.Proofs.Representation

/-!
# What a run leaves of the other threads

The running thread is not in the pool while it runs, and goes back to its slot when it stops. Meanwhile it
starts and kills threads in other slots by its event commands, and in no other way. What each event command
asks for is told here without looking at how a place is found: an event goes to the lowest dead slot or to
the slot that is named, a kill goes to the slot that is named, and neither goes to the slot that is running.
So no event that was started is lost when the running thread goes back, and whatever a slot holds after a
run was there before, or is the last that an event command has put there.
-/
namespace RoomScript

namespace Pool

/-- The lowest slot without a live thread, the running one left aside. -/
structure LowestDead (pool : Pool) (running : Option Slot) (place : Slot) : Prop where
  notRunning : running ≠ some place
  dead : ¬(pool.thread place).isAlive
  lower : ∀ k, k < place → running ≠ some k → (pool.thread k).isAlive

/-- All slots have live threads, the running one left aside. -/
def Full (pool : Pool) (running : Option Slot) : Prop :=
  ∀ k, running ≠ some k → (pool.thread k).isAlive

variable {pool : Pool} {running : Option Slot} {place k : Slot}

theorem firstDead?_eq_some (h : pool.firstDead? running = some place) :
    pool.LowestDead running place := by
  obtain ⟨hplace, as, bs, hslots, has⟩ := List.find?_eq_some_iff_append.mp h
  simp only [decide_eq_true_eq, Bool.not_eq_true'] at hplace
  refine ⟨hplace.1, by simp [hplace.2], fun k hk hne => ?_⟩
  have hsorted := List.pairwise_lt_finRange maxThreads
  rw [hslots, List.pairwise_append, List.pairwise_cons] at hsorted
  have hmem := List.mem_finRange k
  rw [hslots] at hmem
  rcases List.mem_append.mp hmem with hfront | hback
  · have hpassed := has k hfront
    simpa [hne] using hpassed
  · rcases List.mem_cons.mp hback with rfl | hbehind
    · exact absurd hk (Fin.lt_irrefl _)
    · exact absurd hk (Fin.lt_asymm (hsorted.2.1.1 k hbehind))

theorem firstDead?_eq_none (h : pool.firstDead? running = none) : pool.Full running := by
  intro k hne
  have hpassed := List.find?_eq_none.mp h k (List.mem_finRange k)
  simpa [hne] using hpassed

theorem LowestDead.unique (h : pool.LowestDead running place) (h' : pool.LowestDead running k) :
    place = k := by
  rcases Nat.lt_trichotomy place.val k.val with hlt | heq | hlt
  · exact absurd (h'.lower place hlt h.notRunning) h.dead
  · exact Fin.ext heq
  · exact absurd (h.lower k hlt h'.notRunning) h'.dead

theorem LowestDead.not_full (h : pool.LowestDead running place) : ¬pool.Full running :=
  fun hfull => h.dead (hfull place h.notRunning)

theorem LowestDead.firstDead?_eq (h : pool.LowestDead running place) :
    pool.firstDead? running = some place := by
  cases hfirst : pool.firstDead? running with
  | none => exact absurd (firstDead?_eq_none hfirst) h.not_full
  | some k => rw [(firstDead?_eq_some hfirst).unique h]

theorem Full.firstDead?_eq (h : pool.Full running) : pool.firstDead? running = none := by
  cases hfirst : pool.firstDead? running with
  | none => rfl
  | some k => exact absurd h (firstDead?_eq_some hfirst).not_full

variable {requested : UInt8}

theorem val_ne_anySlot (h : requested.toNat = place.val) : requested ≠ anySlot := by
  rintro rfl
  have hlt := place.isLt
  rw [← h] at hlt
  exact absurd hlt (by decide)

theorem place?_anySlot : pool.place? running anySlot = pool.firstDead? running := if_pos rfl

theorem place?_of_named (h : requested.toNat = place.val) (hne : running ≠ some place) :
    pool.place? running requested = some place := by
  rw [place?, if_neg (val_ne_anySlot h), h, slot?_val]
  simp [hne]

theorem place?_of_self (h : requested.toNat = place.val) : pool.place? (some place) requested = none := by
  rw [place?, if_neg (val_ne_anySlot h), h, slot?_val]
  simp

theorem place?_of_outside (hany : requested ≠ anySlot) (h : maxThreads ≤ requested.toNat) :
    pool.place? running requested = none := by
  rw [place?, if_neg hany, slot?, dif_neg (Nat.not_lt.mpr h)]
  rfl

end Pool

namespace EventCommand

/-- What an event command of the thread in slot `running` is to do to other threads. -/
inductive Asks (p : Program) (running : Slot) (pool : Pool) : EventCommand → Option Effect → Prop
  /-- The program has no such event. -/
  | unknown {requested event : UInt8} : p.entry? event = none →
      Asks p running pool (.exec requested event) none
  | lowest {event : UInt8} {entry : Nat} {place : Slot} : p.entry? event = some entry →
      pool.LowestDead (some running) place →
      Asks p running pool (.exec anySlot event) (some (.start place entry event))
  | full {event : UInt8} : pool.Full (some running) →
      Asks p running pool (.exec anySlot event) none
  | named {requested event : UInt8} {entry : Nat} {place : Slot} : p.entry? event = some entry →
      requested.toNat = place.val → place ≠ running →
      Asks p running pool (.exec requested event) (some (.start place entry event))
  /-- A thread does not replace itself. -/
  | self {requested event : UInt8} : requested.toNat = running.val →
      Asks p running pool (.exec requested event) none
  | outside {requested event : UInt8} : requested ≠ anySlot → maxThreads ≤ requested.toNat →
      Asks p running pool (.exec requested event) none
  | kill {number : UInt8} {target : Slot} : number.toNat = target.val → target ≠ running →
      Asks p running pool (.kill number) (some (.kill target))
  /-- A thread that kills itself ends, and the pool has no part in it. -/
  | killSelf {number : UInt8} : number.toNat = running.val → Asks p running pool (.kill number) none
  | killOutside {number : UInt8} : maxThreads ≤ number.toNat →
      Asks p running pool (.kill number) none

variable {p : Program} {running : Slot} {pool : Pool} {c : EventCommand}

/-- Each event command does what it asks for. -/
theorem asks_effect? (p : Program) (running : Slot) (pool : Pool) (c : EventCommand) :
    c.Asks p running pool (c.effect? p running pool) := by
  cases c with
  | exec requested event =>
      cases he : p.entry? event with
      | none =>
          simp only [effect?, he, Option.bind_none]
          exact .unknown he
      | some entry =>
          simp only [effect?, he, Option.bind_some]
          by_cases hany : requested = anySlot
          · rw [hany, Pool.place?_anySlot]
            cases hf : pool.firstDead? (some running) with
            | none => exact .full (Pool.firstDead?_eq_none hf)
            | some place => exact .lowest he (Pool.firstDead?_eq_some hf)
          · rcases Nat.lt_or_ge requested.toNat maxThreads with hlt | hge
            · by_cases hself : requested.toNat = running.val
              · rw [Pool.place?_of_self hself]
                exact .self hself
              · have hne : (⟨requested.toNat, hlt⟩ : Slot) ≠ running :=
                  fun h => hself (congrArg Fin.val h)
                have hplace : pool.place? (some running) requested = some ⟨requested.toNat, hlt⟩ :=
                  Pool.place?_of_named rfl fun h => hne (Option.some.inj h).symm
                rw [hplace]
                exact .named he rfl hne
            · rw [Pool.place?_of_outside hany hge]
              exact .outside hany hge
  | kill number =>
      simp only [effect?]
      by_cases hlt : number.toNat < maxThreads
      · rw [Pool.slot?, dif_pos hlt, Option.bind_some]
        split_ifs with hself
        · exact .killSelf (congrArg Fin.val hself)
        · exact .kill rfl hself
      · rw [Pool.slot?, dif_neg hlt]
        exact .killOutside (Nat.le_of_not_lt hlt)

theorem effect?_exec_of_none {requested event : UInt8}
    (h : pool.place? (some running) requested = none) :
    effect? p running pool (.exec requested event) = none := by
  rw [effect?, h]
  cases p.entry? event <;> rfl

/-- An event command asks for nothing but what it does. -/
theorem Asks.effect?_eq {e : Option Effect} (h : c.Asks p running pool e) :
    c.effect? p running pool = e := by
  cases h with
  | unknown he => rw [effect?, he, Option.bind_none]
  | lowest he hplace =>
      rw [effect?, he, Option.bind_some, Pool.place?_anySlot, hplace.firstDead?_eq, Option.map_some]
  | full hfull =>
      apply effect?_exec_of_none
      rw [Pool.place?_anySlot, hfull.firstDead?_eq]
  | named he hplace hne =>
      have hplaced : pool.place? (some running) _ = some _ :=
        Pool.place?_of_named hplace fun h => hne (Option.some.inj h).symm
      rw [effect?, he, Option.bind_some, hplaced, Option.map_some]
  | self hplace => exact effect?_exec_of_none (Pool.place?_of_self hplace)
  | outside hany hout => exact effect?_exec_of_none (Pool.place?_of_outside hany hout)
  | kill htarget hne => rw [effect?, htarget, Pool.slot?_val, Option.bind_some, if_neg hne]
  | killSelf hself => rw [effect?, hself, Pool.slot?_val, Option.bind_some, if_pos rfl]
  | killOutside hout => rw [effect?, Pool.slot?, dif_neg (Nat.not_lt.mpr hout), Option.bind_none]

theorem asks_iff {e : Option Effect} :
    c.Asks p running pool e ↔ c.effect? p running pool = e :=
  ⟨Asks.effect?_eq, fun h => h ▸ asks_effect? p running pool c⟩

end EventCommand

namespace Thread

variable {p : Program} {t t' : Thread} {result : Except Fault Outcome}

/-- A thread goes on by moves of its own until it stops. -/
def Continues (p : Program) (t : Thread) (result : Except Fault Outcome) (t' : Thread) : Prop :=
  ∃ last, Relation.ReflTransGen (Moves p) { t with status := .running } last ∧
    last.Stops p result t'

/-- Whatever subroutines a thread enters and leaves, the event that it is a run of stays the same. -/
theorem Moves.head_callTrace (h : t.Moves p t') (hw : t.WellFormed) (ha : t.isAlive) :
    t'.callTrace.head? = t.callTrace.head? := by
  have hlength := hw.callTrace ha
  cases h with
  | within _ _ => rfl
  | call _ _ _ ht =>
      rw [(calls_of_call? ht).callTrace, List.head?_append_of_ne_nil]
      · rfl
      · exact List.ne_nil_of_length_eq_add_one hlength
  | leave _ _ ht =>
      have hr := returns_of_return? ht
      have hdepth := hr.depth
      rw [hr.callTrace, List.head?_dropLast, if_pos (by omega)]

theorem Stops.head_callTrace (h : t.Stops p result t') (ha : t'.isAlive) :
    t'.callTrace.head? = t.callTrace.head? := by
  cases h with
  | park _ => rfl
  | fail _ => rfl
  | finish => cases ha

end Thread

theorem Machine.Steps.moves {p : Program} {slot : Slot} {n : Nat} {m m' : Machine}
    (h : Steps p slot n m m') : Relation.ReflTransGen (Thread.Moves p) m.thread m'.thread := by
  induction h with
  | refl => exact .refl
  | step hs _ ih => exact .head (moves_of_running hs) ih

theorem Machine.Keeps.head_callTrace {p : Program} {slot : Slot} {n : Nat} {m m' : Machine}
    (h : m.Keeps Thread.WellFormed) (hs : Steps p slot n m m') :
    m'.thread.callTrace.head? = m.thread.callTrace.head? := by
  induction hs with
  | refl => rfl
  | step hstep _ ih =>
      rw [ih (h.step (Thread.wellFormed_invariant p) .of_dead hstep)]
      exact (moves_of_running hstep).head_callTrace h.thread h.alive

namespace Interpreter

/-- What another slot holds after a run of the thread in a slot. -/
inductive Fate (p : Program) (it : Interpreter) (slot k : Slot) : Thread → Prop
  | kept : (∀ e ∈ it.effects p slot, e.slot ≠ k) → Fate p it slot k (it.threads.thread k)
  /-- The last that the run has done to the slot is to kill its thread. -/
  | killed {m : Machine} {number : UInt8} : m ∈ it.visits p slot →
      m.command? p = some (.event (.kill number)) → number.toNat = k.val →
      Effect.last? k (it.effects p slot) = some (.kill k) → Fate p it slot k Thread.dead
  /-- The last that the run has done to the slot is to start an event there. -/
  | started {m : Machine} {requested event : UInt8} {entry : Nat} : m ∈ it.visits p slot →
      m.command? p = some (.event (.exec requested event)) → p.entry? event = some entry →
      Effect.last? k (it.effects p slot) = some (.start k entry event) →
      Fate p it slot k (Thread.start entry event)

/-- What a run of the thread in a slot does to the pool. -/
structure Framed (p : Program) (it : Interpreter) (slot : Slot) (report : Report Outcome) :
    Prop where
  /-- The run goes through all machines to which its iterations lead. -/
  visits : ∀ m, m ∈ it.visits p slot ↔
    (it.threads.thread slot).isAlive ∧ ∃ n, Machine.Steps p slot n (it.machine slot) m
  /-- An event command does to other threads what it asks for. -/
  command : ∀ m ∈ it.visits p slot, ∀ c, m.command? p = some (.event c) →
    ∀ e, c.Asks p slot m.pool e ↔ m.effect? p slot = e
  /-- No other instruction does anything to other threads. -/
  silent : ∀ m ∈ it.visits p slot, (∀ c, m.command? p ≠ some (.event c)) → m.effect? p slot = none
  /-- Every instruction leaves the pool as it was but for its own effect. -/
  pool : ∀ m ∈ it.visits p slot,
    (m.step p slot).machine.pool = (m.effect? p slot).elim m.pool (Effect.apply m.pool)
  /-- An event that is started on any slot takes the place of no live thread. -/
  spares : ∀ m ∈ it.visits p slot, ∀ event,
    m.command? p = some (.event (.exec anySlot event)) →
    ∀ k, (m.pool.thread k).isAlive →
      (m.step p slot).machine.pool.thread k = m.pool.thread k
  /-- No event is started and no thread killed in the running slot. -/
  elsewhere : ∀ e ∈ it.effects p slot, e.slot ≠ slot
  /-- Every other slot holds what the last effect on it has left there, if there was one. -/
  others : ∀ k, k ≠ slot → report.interpreter.threads.thread k =
    Effect.after k (it.effects p slot) (it.threads.thread k)
  fate : ∀ k, k ≠ slot → it.Fate p slot k (report.interpreter.threads.thread k)
  /-- The slot itself gets its own thread back, by that thread's own moves. -/
  own : (it.threads.thread slot).isAlive →
    (it.threads.thread slot).Continues p report.result (report.interpreter.threads.thread slot)
  /-- The thread that comes back is still a run of its own event. -/
  event : (it.threads.thread slot).isAlive → (report.interpreter.threads.thread slot).isAlive →
    (report.interpreter.threads.thread slot).callTrace.head? =
      (it.threads.thread slot).callTrace.head?
  /-- A slot without a live thread does not run. -/
  dead : ¬(it.threads.thread slot).isAlive → report = { interpreter := it, result := .ok .terminated }

/-- What it comes to when the host starts an event. -/
inductive StartsEvent (p : Program) (it : Interpreter) (event : UInt8) : Report Answer → Prop
  | unknown : p.entry? event = none →
      StartsEvent p it event { interpreter := it, result := .error (.unknownEvent event) }
  | full {entry : Nat} : p.entry? event = some entry → it.threads.Full none →
      StartsEvent p it event { interpreter := it, result := .ok (.started none) }
  | lowest {entry : Nat} {place : Slot} : p.entry? event = some entry →
      it.threads.LowestDead none place →
      StartsEvent p it event
        { interpreter :=
            { it with threads := it.threads.put place (Thread.start entry event) }
          result := .ok (.started (some place)) }

variable {p : Program} {it : Interpreter} {slot k : Slot} {m : Machine}

theorem startsEvent_serve (p : Program) (it : Interpreter) (event : UInt8) :
    StartsEvent p it event (it.serve p (.startEvent event)) := by
  simp only [serve, startEvent]
  cases he : p.entry? event with
  | none => exact .unknown he
  | some entry =>
      rw [Pool.place?_anySlot]
      cases hf : it.threads.firstDead? none with
      | none => exact .full he (Pool.firstDead?_eq_none hf)
      | some place => exact .lowest he (Pool.firstDead?_eq_some hf)

theorem exists_visit {e : Effect} (h : e ∈ it.effects p slot) :
    ∃ m ∈ it.visits p slot, m.effect? p slot = some e := by
  obtain ⟨m, hm, he⟩ := List.mem_flatMap.mp h
  exact ⟨m, hm, Option.mem_toList.mp he⟩

theorem slot_ne_of_mem_effects {e : Effect} (h : e ∈ it.effects p slot) : e.slot ≠ slot := by
  obtain ⟨m, _, he⟩ := exists_visit h
  obtain ⟨c, _, hc⟩ := Machine.command?_of_effect? he
  exact EventCommand.slot_effect?_ne hc

/-- What another slot holds after a run, told by the last effect on it. -/
theorem fate_after (p : Program) (it : Interpreter) (slot k : Slot) :
    it.Fate p slot k (Effect.after k (it.effects p slot) (it.threads.thread k)) := by
  cases hl : Effect.last? k (it.effects p slot) with
  | none =>
      have hnone := Effect.last?_eq_none_iff.mp hl
      rw [Effect.after_of_untouched hnone]
      exact .kept hnone
  | some e =>
      obtain ⟨hmem, rfl⟩ := Effect.mem_of_last? hl
      rw [Effect.after_of_last? hl]
      obtain ⟨m, hm, he⟩ := exists_visit hmem
      obtain ⟨c, hc, he⟩ := Machine.command?_of_effect? he
      cases e with
      | start place entry event =>
          obtain ⟨requested, rfl, hentry, _⟩ := EventCommand.effect?_start he
          exact .started hm hc hentry hl
      | kill target =>
          obtain ⟨number, rfl, hnumber, _⟩ := EventCommand.effect?_kill he
          exact .killed hm hc hnumber hl

theorem thread_runSlot_other (hk : k ≠ slot) :
    (it.runSlot p slot).interpreter.threads.thread k =
      Effect.after k (it.effects p slot) (it.threads.thread k) := by
  by_cases ha : (it.threads.thread slot).isAlive
  · rw [runSlot_of_alive ha, threads_reportOf, Pool.thread_put_of_ne hk.symm, Machine.pool_runFor,
      Effect.thread_foldl, effects_of_alive ha]
    rfl
  · rw [runSlot_of_dead ha, effects, visits_of_dead ha]
    rfl

theorem continues_runSlot (h : it.Reachable fun _ => True)
    (ha : (it.threads.thread slot).isAlive) :
    (it.threads.thread slot).Continues p (it.runSlot p slot).result
      ((it.runSlot p slot).interpreter.threads.thread slot) := by
  obtain ⟨n, m, result, _, hends⟩ := exists_ends h p ha
  rw [runSlot_of_ends h ha hends, threads_reportOf, Pool.thread_put_self]
  obtain ⟨_, last, _, hsteps, hlast⟩ := hends.split
  exact ⟨last.thread, hsteps.moves, Machine.stops_of_stopped hlast⟩

theorem event_runSlot (h : it.Reachable fun _ => True) (ha : (it.threads.thread slot).isAlive)
    (ha' : ((it.runSlot p slot).interpreter.threads.thread slot).isAlive) :
    ((it.runSlot p slot).interpreter.threads.thread slot).callTrace.head? =
      (it.threads.thread slot).callTrace.head? := by
  obtain ⟨n, m, result, _, hends⟩ := exists_ends h p ha
  rw [runSlot_of_ends h ha hends, threads_reportOf, Pool.thread_put_self] at ha' ⊢
  obtain ⟨_, last, _, hsteps, hlast⟩ := hends.split
  have hk := machine_keeps (Thread.wellFormed_invariant p)
    (h.all (fun p _ => Thread.wellFormed_invariant p) .of_dead) ha
  rw [(Machine.stops_of_stopped hlast).head_callTrace ha', hk.head_callTrace hsteps]
  rfl

/-- Whatever programs an interpreter has run before: a run of one slot starts and kills threads in other
slots only, by its event commands and as they ask for, and gives its own slot its own thread back; and an
event that the host starts goes to the lowest dead slot or, when there is none, nowhere. -/
theorem Reachable.pool_framed (h : it.Reachable fun _ => True) (p : Program) (slot : Slot) :
    Framed p it slot (it.runThread p slot.val) ∧
      ∀ event, StartsEvent p it event (it.serve p (.startEvent event)) := by
  refine ⟨?_, startsEvent_serve p it⟩
  rw [runThread_val]
  exact {
    visits := fun m => h.mem_visits_iff
    command := fun m _ c hc e => by
      rw [Machine.effect?_of_command? hc]
      exact EventCommand.asks_iff
    silent := fun m _ hnone => by
      cases he : m.effect? p slot with
      | none => rfl
      | some e =>
          obtain ⟨c, hc, _⟩ := Machine.command?_of_effect? he
          exact absurd hc (hnone c)
    pool := fun m _ => Machine.pool_step p slot m
    spares := fun m _ event hc k ha => by
      rw [Machine.pool_step, Machine.effect?_of_command? hc]
      cases he : (EventCommand.exec anySlot event).effect? p slot m.pool with
      | none => rfl
      | some e =>
          have hasks := EventCommand.asks_iff.mpr he
          cases hasks with
          | @lowest _ entry place _ hplace =>
              have hne : place ≠ k := fun heq => hplace.dead (heq ▸ ha)
              exact Pool.thread_put_of_ne hne _
          | named _ hnamed _ => exact absurd rfl (Pool.val_ne_anySlot hnamed)
    elsewhere := fun e he => slot_ne_of_mem_effects he
    others := fun k hk => thread_runSlot_other hk
    fate := fun k hk => thread_runSlot_other hk ▸ fate_after p it slot k
    own := continues_runSlot h
    event := event_runSlot h
    dead := runSlot_of_dead }

/-- An event that starts and kills others in the slots around it, in some of them more than once. -/
def crowding : Program :=
  .ofFunctions [([Line.evtExec anySlot 1, .evtExec 3 2, .evtKill 2, .evtExec anySlot 2,
      .evtExec 0 1, .evtKill 3] ++ Line.sleep 1).flatMap Line.encode,
    (Line.sleep 5).flatMap Line.encode, [Line.evtEnd].flatMap Line.encode]

theorem pool_framed_crowding :
    let first := (({} : Interpreter).serve crowding (.startEvent 0)).interpreter
    let second := (first.serve crowding (.startEvent 1)).interpreter
    let it := (second.serve crowding (.startEvent 1)).interpreter
    let after := (it.runThread crowding 0).interpreter.threads
    it.effects crowding 0 =
        [.start 3 27 1, .start 3 34 2, .kill 2, .start 2 34 2, .kill 3] ∧
      after.thread 1 = it.threads.thread 1 ∧ after.thread 2 = Thread.start 34 2 ∧
      after.thread 3 = Thread.dead ∧ (after.thread 0).status = .suspended ∧
      Framed crowding it 0 (it.runThread crowding 0) ∧
      ∀ event, StartsEvent crowding it event (it.serve crowding (.startEvent event)) := by
  intro first second it after
  have hit : it.Reachable fun _ => True :=
    .serve (.startEvent 1) trivial (.serve (.startEvent 1) trivial
      (.serve (.startEvent 0) trivial .fresh))
  refine ⟨?_, ?_, ?_, ?_, ?_, Reachable.pool_framed hit crowding 0⟩
  all_goals decide +kernel

end Interpreter

end RoomScript
