import RoomScript.Proofs.Dispatch.Open
import RoomScript.Proofs.Retry

/-!
# Sleeping

A sleep is two instructions, a countdown and the one that waits for its end. A thread that comes to the first
with a count of `n` is parked on the second by its next `n` runs, each of which only counts down, whatever
happens around it in the meantime. The run after these goes on behind the sleep as if it had never been: all
that is left of it is what its loop slot held, and that slot is closed.
-/
namespace RoomScript

namespace CallLevel

variable {l l' : CallLevel} {slot : LoopSlot}

/-- The loop that has just been opened is the innermost one. -/
theorem currentLoop?_of_pushLoop? (h : l.pushLoop? slot = some l') : l'.currentLoop? = some slot := by
  have hp := pushesLoop h
  have hroom := hp.room
  refine currentLoop?_eq_some_iff.mpr ⟨?_, ?_, ?_⟩
  · rw [hp.openLoops]
    exact Nat.succ_pos _
  · rw [hp.openLoops]
    exact hroom
  · rw [hp.openLoops, Nat.add_sub_cancel, hp.loop_new]

/-- Replacing the loop that has just been opened is opening another one in its place. -/
theorem pushLoop?_setLoop (h : l.pushLoop? slot = some l') (slot' : LoopSlot) :
    l.pushLoop? slot' = some (l'.setLoop slot') := by
  unfold pushLoop? at h ⊢
  split at h
  · rename_i hroom
    cases h
    have hloops : (l.loops.set l.openLoops slot hroom).setIfInBounds l.openLoops slot' =
        l.loops.set l.openLoops slot' hroom := by
      apply Vector.ext
      intro i hi
      simp only [Vector.getElem_setIfInBounds, Vector.getElem_set]
      split <;> rfl
    simp only [dif_pos hroom, setLoop, Nat.add_sub_cancel, hloops]
  · cases h

end CallLevel

namespace Thread

/-- Where the second instruction of a sleep stands that starts at the thread's position. -/
def waitingPlace (t : Thread) : Nat := t.pc + Opcode.sleep.width

/-- Where the thread goes on behind a sleep that starts at its position. -/
def wakingPlace (t : Thread) : Nat := t.waitingPlace + Opcode.sleeping.width

/-- The thread stands at a sleep, for which its level has room. -/
structure AtSleep (p : Program) (ticks : UInt16) (t : Thread) : Prop where
  alive : t.isAlive
  sleep : ∃ i, p.instructionAt t.pc = .ok i ∧ i.opcode = .sleep ∧ i.word 2 = ticks
  sleeping : ∃ i, p.instructionAt t.waitingPlace = .ok i ∧ i.opcode = .sleeping
  room : t.level.openLoops < loopSlots

/-- The thread has been parked in the sleep at which it stood, and some ticks of it are left. -/
def AsleepFor (t : Thread) (left : Nat) (t' : Thread) : Prop :=
  ∃ level, t.level.pushLoop? (t.level.slot (.ofNat left) t.waitingPlace t.waitingPlace) = some level ∧
    t' = { t.within t.waitingPlace level with status := .suspended }

/-- The thread has some ticks left of the sleep at which it stands or stood. -/
def Dozes (t : Thread) (ticks : UInt16) (left : Nat) (t' : Thread) : Prop :=
  (t' = t ∧ left = ticks.toNat) ∨ t.AsleepFor left t'

theorem Dozes.isAlive {p : Program} {ticks : UInt16} {left : Nat} {t t' : Thread}
    (h : t.Dozes ticks left t') (hs : t.AtSleep p ticks) : t'.isAlive := by
  rcases h with ⟨rfl, _⟩ | ⟨level, _, rfl⟩
  · exact hs.alive
  · rfl

end Thread

namespace Machine

/-- What is left of a run behind some of its iterations. -/
theorem Steps.rest {p : Program} {slot : Slot} {n k : Nat} {m m' last : Machine}
    {result : Except Fault Outcome} (h : Steps p slot n m m') (hends : Ends p slot k m last result) :
    ∃ j, j ≤ k ∧ Ends p slot j m' last result := by
  induction h generalizing k with
  | refl m => exact ⟨k, Nat.le_refl _, hends⟩
  | step hs _ ih =>
      cases hends with
      | stop hstop =>
          rw [hs] at hstop
          cases hstop
      | step hnext hrest =>
          rw [hs] at hnext
          cases hnext
          obtain ⟨j, hj, hends⟩ := ih hrest
          exact ⟨j, Nat.le_succ_of_le hj, hends⟩

variable {p : Program} {slot : Slot} {m : Machine} {ticks : UInt16} {level : CallLevel}

theorem step_sleep {i : Instruction} (hi : p.instructionAt m.thread.pc = .ok i)
    (hop : i.opcode = .sleep)
    (hl : m.thread.level.pushLoop? (m.thread.level.slot (i.word 2) m.thread.waitingPlace
      m.thread.waitingPlace) = some level) :
    m.step p slot =
      .running { m with thread := m.thread.within m.thread.waitingPlace level } := by
  have hc : Command.ofInstruction i = .flow (.sleep (i.word 2)) := by
    simp only [Command.ofInstruction, hop]
  have hwidth : i.width = Opcode.sleep.width := congrArg Opcode.width hop
  simp only [CallLevel.slot, Thread.waitingPlace, Thread.level] at hl
  rw [step_flow hi hc, hwidth]
  simp only [FlowCommand.run, Thread.openLoop, Thread.level, hl]
  rfl

/-- A sleep that is not over counts down and parks the thread where it stands. -/
theorem step_sleeping {i : Instruction} {loop : LoopSlot}
    (hi : p.instructionAt m.thread.pc = .ok i) (hop : i.opcode = .sleeping)
    (hl : m.thread.level.currentLoop? = some loop) (hz : loop.counter ≠ 0) :
    m.step p slot = .stopped { m with
      thread := { m.thread.within m.thread.pc
        (m.thread.level.setLoop { loop with counter := loop.counter - 1 }) with
          status := .suspended } } (.ok .suspended) := by
  have hc : Command.ofInstruction i = .flow .sleeping := by
    simp only [Command.ofInstruction, hop]
  rw [step_flow hi hc]
  simp only [Thread.level] at hl
  simp only [FlowCommand.run, Thread.level, hl, hz, if_false]
  rfl

/-- A sleep that is over closes its slot and lets the thread go on. -/
theorem step_waking {i : Instruction} {loop : LoopSlot}
    (hi : p.instructionAt m.thread.pc = .ok i) (hop : i.opcode = .sleeping)
    (hl : m.thread.level.currentLoop? = some loop) (hz : loop.counter = 0) (slot : Slot) :
    m.step p slot = .running { m with
      thread := m.thread.within (m.thread.pc + Opcode.sleeping.width) m.thread.level.popLoop } := by
  have hc : Command.ofInstruction i = .flow .sleeping := by
    simp only [Command.ofInstruction, hop]
  have hwidth : i.width = Opcode.sleeping.width := congrArg Opcode.width hop
  rw [step_flow hi hc, hwidth]
  simp only [Thread.level] at hl
  simp only [FlowCommand.run, Thread.level, hl, hz, if_true]
  rfl

end Machine

namespace Interpreter

variable {p : Program} {it : Interpreter} {slot : Slot} {ticks : UInt16} {t t' : Thread} {left : Nat}

/-- The machine of a thread at the second instruction of its sleep. -/
def waiting (it : Interpreter) (slot : Slot) (t : Thread) (level : CallLevel) : Machine :=
  { it.machine slot with thread := { t.within t.waitingPlace level with status := .running } }

theorem level_waiting (it : Interpreter) (slot : Slot) (t : Thread) (level : CallLevel) :
    (it.waiting slot t level).thread.level = level := t.level_within t.waitingPlace level

/-- A thread comes to the second instruction of its sleep, unless it is there already. -/
theorem steps_to_waiting (hs : t.AtSleep p ticks) (hd : t.Dozes ticks left t')
    (ht : it.threads.thread slot = t') :
    ∃ n level,
      t.level.pushLoop? (t.level.slot (.ofNat left) t.waitingPlace t.waitingPlace) = some level ∧
      Machine.Steps p slot n (it.machine slot) (it.waiting slot t level) := by
  rcases hd with ⟨rfl, rfl⟩ | ⟨level, hl, rfl⟩
  · obtain ⟨i, hi, hop, rfl⟩ := hs.sleep
    obtain ⟨level, hl⟩ := CallLevel.exists_pushLoop? hs.room
      (t'.level.slot (i.word 2) t'.waitingPlace t'.waitingPlace)
    refine ⟨1, level, by rwa [UInt16.ofNat_toNat], .single ?_⟩
    subst ht
    exact Machine.step_sleep hi hop hl
  · refine ⟨0, level, hl, ?_⟩
    have hm : it.machine slot = it.waiting slot t level := by simp only [waiting, machine, ht]
    rw [← hm]
    exact .refl _

theorem ofNat_succ_ne_zero (hleft : left + 1 < UInt16.size) : UInt16.ofNat (left + 1) ≠ 0 := by
  intro hzero
  have hn := congrArg UInt16.toNat hzero
  rw [UInt16.toNat_ofNat_of_lt' hleft] at hn
  cases hn

/-- A thread that has ticks left takes one of them and is parked. -/
theorem step_waiting (hs : t.AtSleep p ticks) (hleft : left + 1 < UInt16.size) {level : CallLevel}
    (hl : t.level.pushLoop? (t.level.slot (.ofNat (left + 1)) t.waitingPlace t.waitingPlace) =
      some level) :
    ∃ asleep, t.AsleepFor left asleep ∧ (it.waiting slot t level).step p slot =
      .stopped { it.machine slot with thread := asleep } (.ok .suspended) := by
  obtain ⟨i, hi, hop⟩ := hs.sleeping
  have hcurrent := CallLevel.currentLoop?_of_pushLoop? hl
  rw [← level_waiting it slot t level] at hcurrent
  have hset := CallLevel.pushLoop?_setLoop hl
    (t.level.slot (.ofNat left) t.waitingPlace t.waitingPlace)
  refine ⟨_, ⟨_, hset, rfl⟩, ?_⟩
  have hcount : UInt16.ofNat (left + 1) - 1 = UInt16.ofNat left := by
    rw [UInt16.ofNat_add]
    exact UInt16.add_sub_cancel _ _
  rw [Machine.step_sleeping hi hop hcurrent (ofNat_succ_ne_zero hleft), level_waiting]
  simp only [CallLevel.slot, hcount, waiting, Thread.within, Thread.setLevel, Vector.set_set]

/-- A run of a thread that has ticks left parks it again and does nothing else. -/
theorem runSlot_of_dozes (h : it.Reachable fun _ => True) (hs : t.AtSleep p ticks)
    (hd : t.Dozes ticks (left + 1) t') (ht : it.threads.thread slot = t')
    (hleft : left + 1 < UInt16.size) :
    ∃ asleep, t.AsleepFor left asleep ∧
      it.runSlot p slot =
        { interpreter := { it with threads := it.threads.put slot asleep }
          result := .ok .suspended } := by
  obtain ⟨n, level, hl, hsteps⟩ := steps_to_waiting hs hd ht
  obtain ⟨asleep, hasleep, hstep⟩ := step_waiting hs hleft hl
  have ha : (it.threads.thread slot).isAlive := ht ▸ hd.isAlive hs
  refine ⟨asleep, hasleep, ?_⟩
  rw [runSlot_of_ends h ha (hsteps.ends (.stop hstep))]
  rfl

/-- Two runs of the thread in a slot that differ at most in loop slots of that thread that are not open. -/
structure SameRun (slot : Slot) (report report' : Report Outcome) : Prop where
  result : report'.result = report.result
  calls : report'.calls = report.calls
  store : report'.interpreter.store = report.interpreter.store
  others : report.interpreter.threads.SameOthers slot report'.interpreter.threads
  own : (report.interpreter.threads.thread slot).SameOpen
    (report'.interpreter.threads.thread slot)

theorem sameRun_of_sameOpen {last last' : Machine} (h : last.SameOpen slot last')
    (result : Except Fault Outcome) :
    SameRun slot (reportOf slot (last, result)) (reportOf slot (last', result)) where
  result := rfl
  calls := h.calls
  store := h.store
  others k hk := by
    rw [threads_reportOf, threads_reportOf, Pool.thread_put_of_ne hk.symm,
      Pool.thread_put_of_ne hk.symm]
    exact h.pool k hk
  own := by
    rw [thread_reportOf, thread_reportOf]
    exact h.thread

/-- The interpreter with the thread in a slot behind the sleep at which it stood, as if it had never slept. -/
def skipSleep (it : Interpreter) (slot : Slot) (t : Thread) : Interpreter :=
  { it with threads := it.threads.put slot { t with pc := t.wakingPlace } }

/-- A thread that has no ticks left goes on like one that has skipped its sleep. -/
theorem exists_step_waiting (hs : t.AtSleep p ticks) {level : CallLevel}
    (hl : t.level.pushLoop? (t.level.slot (.ofNat 0) t.waitingPlace t.waitingPlace) = some level) :
    ∃ m, (it.waiting slot t level).step p slot = .running m ∧
      m.SameOpen slot ((it.skipSleep slot t).machine slot) := by
  obtain ⟨i, hi, hop⟩ := hs.sleeping
  have hcurrent := CallLevel.currentLoop?_of_pushLoop? hl
  rw [← level_waiting it slot t level] at hcurrent
  have hstep := Machine.step_waking hi hop hcurrent rfl slot
  rw [level_waiting] at hstep
  refine ⟨_, hstep, ?_⟩
  have hlevel : level.popLoop.SameOpen t.level := .of_pushLoop? hl
  have hthread := ((Thread.SameOpen.refl t).within t.wakingPlace hlevel).become .running
  rw [Thread.within_level] at hthread
  constructor
  case thread =>
    simp only [waiting, machine, skipSleep, Pool.thread_put_self]
    simp only [Thread.within, Thread.setLevel, Vector.set_set] at hthread ⊢
    exact hthread
  case pool => exact fun k hk => Pool.thread_put_of_ne hk.symm _
  case store => rfl
  case calls => rfl

/-- A run of a thread that has no ticks left is a run from behind the sleep. -/
theorem runSlot_of_awake (h : it.Reachable fun _ => True) (hs : t.AtSleep p ticks)
    (hd : t.Dozes ticks 0 t') (ht : it.threads.thread slot = t') :
    SameRun slot (it.runSlot p slot) ((it.skipSleep slot t).runSlot p slot) := by
  obtain ⟨n, level, hl, hsteps⟩ := steps_to_waiting hs hd ht
  obtain ⟨m, hstep, hsame⟩ := exists_step_waiting hs hl
  have ha : (it.threads.thread slot).isAlive := ht ▸ hd.isAlive hs
  have ha' : ((it.skipSleep slot t).threads.thread slot).isAlive := by
    rw [skipSleep, Pool.thread_put_self]
    exact hs.alive
  obtain ⟨k, last, result, hk, hends⟩ := exists_ends h p ha
  -- The run from behind the sleep is the shorter one, so the budget covers it too.
  obtain ⟨j, hj, hrest⟩ := (hsteps.trans (.single hstep)).rest hends
  obtain ⟨last', hends', hlast⟩ := hsame.ends hrest
  rw [runSlot_of_ends h ha hends, runSlot_of_alive ha', hends'.runFor (Nat.le_trans hj hk)]
  exact sameRun_of_sameOpen hlast result

/-- Interpreters at which a thread has its next turns. Whatever has happened since the turn before, the slot
still holds the thread that was left there. -/
structure NextTurns (p : Program) (slot : Slot) (turns : Nat) (its : Nat → Interpreter) : Prop where
  reachable : ∀ k, k ≤ turns → (its k).Reachable fun _ => True
  kept : ∀ k, k < turns → (its (k + 1)).threads.thread slot =
    ((its k).runThread p slot.val).interpreter.threads.thread slot

theorem NextTurns.dozes {its : Nat → Interpreter} (h : NextTurns p slot ticks.toNat its)
    (hs : ((its 0).threads.thread slot).AtSleep p ticks) {k : Nat} (hk : k ≤ ticks.toNat) :
    ((its 0).threads.thread slot).Dozes ticks (ticks.toNat - k) ((its k).threads.thread slot) := by
  induction k with
  | zero => exact .inl ⟨rfl, rfl⟩
  | succ k ih =>
      have hd := ih (Nat.le_of_succ_le hk)
      have hlt := ticks.toNat_lt_size
      rw [show ticks.toNat - k = ticks.toNat - (k + 1) + 1 by omega] at hd
      obtain ⟨asleep, hasleep, hrun⟩ :=
        runSlot_of_dozes (h.reachable k (by omega)) hs hd rfl (by omega)
      rw [h.kept k hk, runThread_val, hrun, Pool.thread_put_self]
      exact .inr hasleep

/-- Whatever programs have run before and whatever happens between the turns of a thread that has come to a
sleep of `n` ticks: its next `n` runs leave it at the second instruction of the sleep and do nothing else, and
the run after them is the run that it would have been from behind the sleep. -/
theorem sleep_skipped {its : Nat → Interpreter}
    (hs : ((its 0).threads.thread slot).AtSleep p ticks)
    (hturns : NextTurns p slot ticks.toNat its) :
    let t := (its 0).threads.thread slot
    (∀ k, k < ticks.toNat → ∃ asleep, t.AsleepFor (ticks.toNat - (k + 1)) asleep ∧
      (its k).runThread p slot.val =
        { interpreter := { its k with threads := (its k).threads.put slot asleep }
          result := .ok .suspended }) ∧
      SameRun slot ((its ticks.toNat).runThread p slot.val)
        (((its ticks.toNat).skipSleep slot t).runThread p slot.val) := by
  intro t
  have hlt := ticks.toNat_lt_size
  constructor
  · intro k hk
    have hd := hturns.dozes hs (Nat.le_of_lt hk)
    rw [show ticks.toNat - k = ticks.toNat - (k + 1) + 1 by omega] at hd
    rw [runThread_val]
    exact runSlot_of_dozes (hturns.reachable k (Nat.le_of_lt hk)) hs hd rfl (by omega)
  · have hd := hturns.dozes hs (Nat.le_refl _)
    rw [Nat.sub_self] at hd
    rw [runThread_val, runThread_val]
    exact runSlot_of_awake (hturns.reachable _ (Nat.le_refl _)) hs hd rfl

/-- An event that sleeps for two ticks before it uses the store. -/
def dozing : Program :=
  .ofFunctions [(Line.sleep 2 ++ [Line.save 3 7, Line.checkBit 1 2 1, Line.evtEnd]).flatMap Line.encode]

/-- The turns of its thread, in a session in which the host uses the store as well. -/
def dozingTurns : Nat → Interpreter
  | 0 => (({} : Interpreter).serve dozing (.startEvent 0)).interpreter
  | k + 1 => (((dozingTurns k).runThread dozing 0).interpreter.serve dozing
      (.store (.setVar 3 1))).interpreter

theorem sleep_skipped_dozing :
    let t := (dozingTurns 0).threads.thread 0
    ((dozingTurns 0).runThread dozing 0).result = .ok .suspended ∧
      ((dozingTurns 1).runThread dozing 0).result = .ok .suspended ∧
      ((dozingTurns 2).runThread dozing 0).result = .ok .unwound ∧
      ((dozingTurns 2).runThread dozing 0).interpreter.store.var 3 = 7 ∧
      (∀ k, k < 2 → ∃ asleep, t.AsleepFor (2 - (k + 1)) asleep ∧
        (dozingTurns k).runThread dozing 0 =
          { interpreter := { dozingTurns k with threads := (dozingTurns k).threads.put 0 asleep }
            result := .ok .suspended }) ∧
      SameRun 0 ((dozingTurns 2).runThread dozing 0)
        (((dozingTurns 2).skipSleep 0 t).runThread dozing 0) := by
  intro t
  have hs : t.AtSleep dozing 2 := {
    alive := by decide +kernel
    sleep := ⟨⟨.sleep, [10, 2, 0], rfl⟩, by decide +kernel, rfl, by decide +kernel⟩
    sleeping := ⟨⟨.sleeping, [2, 0], rfl⟩, by decide +kernel, rfl⟩
    room := by decide +kernel }
  have hreachable (k : Nat) : (dozingTurns k).Reachable fun _ => True := by
    induction k with
    | zero => exact .serve (.startEvent 0) trivial .fresh
    | succ k ih => exact .serve (.store (.setVar 3 1)) trivial (ih.runThread trivial 0)
  have hturns : NextTurns dozing 0 (2 : UInt16).toNat dozingTurns := {
    reachable := fun k _ => hreachable k
    kept := fun _ _ => rfl }
  refine ⟨?_, ?_, ?_, ?_, sleep_skipped hs hturns⟩
  all_goals decide +kernel

end Interpreter

end RoomScript
