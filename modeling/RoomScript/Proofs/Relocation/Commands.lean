import RoomScript.Proofs.Relocation.Thread

/-!
# Commands of code that starts later

Each group of commands does the same in a program behind other bytes as in the program itself: flow
commands and switches take corresponding threads to corresponding ones, or fail on both; data commands
do the same to the store; event commands find the same slots in corresponding pools.
-/
namespace RoomScript

/-- Two successes of one operation that leave corresponding threads and the same signal. -/
def Thread.ShiftedWith (d : Nat) (x x' : Thread × Signal) : Prop :=
  x.1.Shifted d x'.1 ∧ x'.2 = x.2

namespace Thread.Shifted

variable {d : Nat} {t t' : Thread}

theorem openIf (h : t.Shifted d t') (position : Nat) (length : UInt16) :
    Fault.Agree d (ShiftedWith d) (t.openIf position length) (t'.openIf (position + d) length) := by
  have ho := h.level.openBlock? (t.pc + length.toNat)
  rw [Nat.add_right_comm, ← h.pc] at ho
  unfold Thread.openIf
  generalize t.level.openBlock? (t.pc + length.toNat) = o,
    t'.level.openBlock? (t'.pc + length.toNat) = o' at ho ⊢
  cases ho with
  | none => exact .error (.jumpStackOverflow position)
  | some hl => exact .ok ⟨h.within h.pc hl, rfl⟩

theorem closeIf (h : t.Shifted d t') (position : Nat) (length : UInt16) :
    Fault.Agree d (ShiftedWith d) (t.closeIf position length)
      (t'.closeIf (position + d) length) := by
  have hc := h.level.closeBlock?
  unfold Thread.closeIf
  generalize t.level.closeBlock? = o, t'.level.closeBlock? = o' at hc ⊢
  cases hc with
  | none => exact .error (.jumpStackUnderflow position)
  | some hl => exact .ok ⟨h.within (by rw [h.pc, Nat.add_right_comm]) hl.2, rfl⟩

theorem openLoop (h : t.Shifted d t') (position : Nat) (counter : UInt16) (target : Nat) :
    Fault.Agree d (ShiftedWith d) (t.openLoop position counter target)
      (t'.openLoop (position + d) counter (target + d)) := by
  have hp := h.level.pushLoop? (rfl : (t.level.slot counter t.pc target).savedBlocks = t.level.openBlocks)
  have hslot : (t.level.slot counter t.pc target).shift d =
      t'.level.slot counter t'.pc (target + d) := by
    simp only [CallLevel.slot, LoopSlot.shift, h.level.openBlocks, h.pc]
  rw [hslot] at hp
  unfold CallLevel.slot at hp
  simp only [Thread.openLoop]
  generalize t.level.pushLoop? _ = o, t'.level.pushLoop? _ = o' at hp ⊢
  cases hp with
  | none => exact .error (.loopOverflow position)
  | some hl => exact .ok ⟨h.within h.pc hl, rfl⟩

theorem leave (h : t.Shifted d t') (position : Nat) :
    Fault.Agree d (ShiftedWith d) (t.leave position) (t'.leave (position + d)) := by
  have hr := h.return?
  unfold Thread.leave
  generalize t.return? = o, t'.return? = o' at hr ⊢
  cases hr with
  | none => exact .error (.callStackUnderflow position)
  | some ht => exact .ok ⟨ht, rfl⟩

end Thread.Shifted

/-- A flow command does the same on both threads, or fails on both. -/
theorem FlowCommand.run_behind {t t' : Thread} (front : Array UInt8) (p : Program)
    (h : t.Shifted front.size t') (position : Nat) (c : FlowCommand) :
    Fault.Agree front.size (Thread.ShiftedWith front.size) (c.run p position t)
      (c.run (p.behind front) (position + front.size) t') := by
  have hloop := h.level.currentLoop?
  cases c with
  | endEvent =>
      simp only [FlowCommand.run, h.depth]
      split
      · exact .ok ⟨h, rfl⟩
      · exact h.leave position
  | ret => exact h.leave position
  | gosub event =>
      simp only [FlowCommand.run, p.entry?_behind front]
      cases p.entry? event with
      | none => exact .error (.unknownEvent event)
      | some entry =>
          have hc := h.call? entry event
          simp only [Option.map_some]
          generalize t.call? entry event = o, t'.call? (entry + front.size) event = o' at hc ⊢
          cases hc with
          | none => exact .error (.callStackOverflow position)
          | some ht => exact .ok ⟨ht, rfl⟩
  | openIf length => exact h.openIf position length
  | openElse length => exact h.closeIf position length
  | closeIf => exact h.closeIf position 0
  | sleep ticks =>
      simp only [FlowCommand.run, h.pc]
      exact h.openLoop position ticks t.pc
  | sleeping =>
      simp only [FlowCommand.run, hloop]
      cases hc : t.level.currentLoop? with
      | none => exact .error (.noEnclosingLoop position)
      | some slot =>
          simp only [Option.map_some, LoopSlot.counter_shift]
          by_cases hz : slot.counter = 0
          · simp only [hz, if_true]
            exact .ok ⟨h.within h.pc h.level.popLoop, rfl⟩
          · simp only [hz, if_false]
            exact .ok ⟨h.within rfl (h.level.setLoop hc _), rfl⟩
  | openFor length count =>
      simp only [FlowCommand.run]
      split
      · exact .ok ⟨h.goto (by rw [h.pc, Nat.add_right_comm]), rfl⟩
      · rw [h.pc, Nat.add_right_comm]
        exact h.openLoop position count (t.pc + length.toNat)
  | next =>
      simp only [FlowCommand.run, hloop]
      cases hc : t.level.currentLoop? with
      | none => exact .error (.noEnclosingLoop position)
      | some slot =>
          simp only [Option.map_some, LoopSlot.counter_shift]
          by_cases hn : 1 < slot.counter
          · simp only [hn, if_true]
            exact .ok ⟨h.within rfl (h.level.setLoop hc _), rfl⟩
          · simp only [hn, if_false]
            exact .ok ⟨h.within h.pc (h.level.setLoop hc 0).popLoop, rfl⟩
  | closeSwitch =>
      simp only [FlowCommand.run, hloop]
      cases t.level.currentLoop? with
      | none => exact .error (.noEnclosingLoop position)
      | some slot => exact .ok ⟨h.within h.pc h.level.popLoop, rfl⟩
  | breakOut =>
      simp only [FlowCommand.run, hloop]
      cases hc : t.level.currentLoop? with
      | none => exact .error (.noEnclosingLoop position)
      | some slot => exact .ok ⟨h.within rfl (h.level.breakOut hc), rfl⟩
  | workSet target => exact .ok ⟨{ h with work := rfl }, rfl⟩

/-- A switch lands at the same place, or is stuck there on both threads with its slot open. -/
theorem Thread.Shifted.switch {t t' : Thread} (front code : Array UInt8)
    (h : t.Shifted front.size t') (position : Nat) (value : Int16) (length : UInt16) :
    (t.switch code position value length).1.Shifted front.size
        (t'.switch (front ++ code) (position + front.size) value length).1 ∧
      (t'.switch (front ++ code) (position + front.size) value length).2 =
        (t.switch code position value length).2.mapError (Fault.shift front.size) := by
  have hp := h.level.pushLoop?
    (rfl : (t.level.slot 0 t.pc (t.pc + length.toNat)).savedBlocks = t.level.openBlocks)
  have hslot : (t.level.slot 0 t.pc (t.pc + length.toNat)).shift front.size =
      t'.level.slot 0 t'.pc (t'.pc + length.toNat) := by
    simp only [CallLevel.slot, LoopSlot.shift, h.level.openBlocks, h.pc, Nat.add_right_comm]
  rw [hslot] at hp
  unfold CallLevel.slot at hp
  have hfind := Landing.find_behind front code value t.pc
  rw [← h.pc] at hfind
  simp only [Thread.switch]
  generalize t.level.pushLoop? _ = o, t'.level.pushLoop? _ = o' at hp ⊢
  cases hp with
  | none => exact ⟨h, rfl⟩
  | @some l l' hl =>
      simp only [hfind]
      cases Landing.find code value t.pc with
      | error fault => exact ⟨h.within h.pc hl, rfl⟩
      | ok landing =>
          cases landing with
          | body target => exact ⟨h.within rfl hl, rfl⟩
          | past target =>
              refine ⟨?_, rfl⟩
              have hw : (t.within target l.popLoop).Shifted front.size
                  (t'.within (target + front.size) l'.popLoop) := h.within rfl hl.popLoop
              simpa only [Except.map, mapError_ok, Landing.shift, Thread.within,
                Thread.setLevel, Vector.set_set] using hw

/-- The position of a data command only stands in its fault. -/
theorem DataCommand.run_shift (d position : Nat) (s : Store) (c : DataCommand) :
    c.run (position + d) s =
      ((c.run position s).1, (c.run position s).2.mapError (Fault.shift d)) := by
  have hcalc : ∀ (s : Store) (op : CalcOp) (id : UInt8) (rhs : Int16),
      s.calculate (position + d) op id rhs =
        ((s.calculate position op id rhs).1,
          (s.calculate position op id rhs).2.mapError (Fault.shift d)) := by
    intro s op id rhs
    simp only [Store.calculate]
    split <;> rfl
  unfold DataCommand.run
  split <;> first | rfl | exact hcalc ..

/-- Threads that are both dead, or both alive with the positions of the second `d` bytes later. -/
inductive Thread.Corresponds (d : Nat) : Thread → Thread → Prop
  | dead : Corresponds d dead dead
  | alive {t t' : Thread} : t.Shifted d t' → Corresponds d t t'

theorem Thread.Corresponds.isAlive {d : Nat} {t t' : Thread} (h : t.Corresponds d t') :
    t'.isAlive = t.isAlive := by
  cases h with
  | dead => rfl
  | alive h => simp only [Thread.isAlive, h.status]

/-- Pools whose threads correspond slot by slot. -/
def Pool.Shifted (d : Nat) (pool pool' : Pool) : Prop :=
  ∀ slot, (pool.thread slot).Corresponds d (pool'.thread slot)

namespace Pool.Shifted

variable {d : Nat} {pool pool' : Pool}

theorem put (h : pool.Shifted d pool') (slot : Slot) {t t' : Thread} (ht : t.Corresponds d t') :
    Pool.Shifted d (pool.put slot t) (pool'.put slot t') := by
  intro i
  by_cases hi : slot = i
  · subst hi
    rwa [thread_put_self, thread_put_self]
  · rw [thread_put_of_ne hi, thread_put_of_ne hi]
    exact h i

theorem vacant (d : Nat) : Pool.Shifted d Pool.vacant Pool.vacant := by
  intro slot
  rw [thread_vacant]
  exact .dead

/-- An event finds the same place in both pools. -/
theorem place?_eq (h : pool.Shifted d pool') (running : Option Slot) (requested : UInt8) :
    pool'.place? running requested = pool.place? running requested := by
  have hdead : pool'.firstDead? running = pool.firstDead? running := by
    simp only [firstDead?, fun i => (h i).isAlive]
  simp only [place?, hdead]

end Pool.Shifted

/-- An event command starts and kills the same slots of both pools. -/
theorem EventCommand.run_behind {pool pool' : Pool} (front : Array UInt8) (p : Program)
    (h : pool.Shifted front.size pool') (slot : Slot) (c : EventCommand) :
    Fault.Agree front.size (fun x x' => x.1.Shifted front.size x'.1 ∧ x'.2 = x.2)
      (c.run p slot pool) (c.run (p.behind front) slot pool') := by
  cases c with
  | exec requested event =>
      simp only [EventCommand.run, p.entry?_behind front, h.place?_eq]
      cases p.entry? event with
      | none => exact .error (.unknownEvent event)
      | some entry =>
          simp only [Option.map_some]
          cases pool.place? (some slot) requested with
          | none => exact .ok ⟨h, rfl⟩
          | some place => exact .ok ⟨h.put place (.alive (.start _ entry event)), rfl⟩
  | kill number =>
      unfold EventCommand.run
      by_cases hn : number.toNat = slot.val
      · simp only [hn, if_true]
        exact .ok ⟨h, rfl⟩
      · simp only [hn, if_false]
        cases Pool.slot? number.toNat with
        | none => exact .ok ⟨h, rfl⟩
        | some target => exact .ok ⟨h.put target .dead, rfl⟩

end RoomScript
