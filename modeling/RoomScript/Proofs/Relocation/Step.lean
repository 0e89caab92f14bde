import RoomScript.Proofs.Relocation.Commands

/-!
# Steps of code that starts later

One iteration of the dispatch loop on a program behind other bytes does what it does on the program
itself: corresponding machines go on to corresponding machines, or stop with corresponding results. The
store, the calls to the world and the choices made on the way are the same.
-/
namespace RoomScript

/-- Machines that differ in the positions of their threads alone. How the running threads correspond is
left open, since a thread may be dead when it has stopped. -/
structure Machine.Alike (d : Nat) (R : Thread → Thread → Prop) (m m' : Machine) : Prop where
  thread : R m.thread m'.thread
  pool : m.pool.Shifted d m'.pool
  store : m'.store = m.store
  calls : m'.calls = m.calls

/-- Corresponding steps: both go on, or both stop. -/
inductive Progress.Shifted (d : Nat) : Progress → Progress → Prop
  | running {m m' : Machine} :
      m.Alike d (Thread.Shifted d) m' → Shifted d (.running m) (.running m')
  | stopped {m m' : Machine} {result : Except Fault Outcome} :
      m.Alike d (Thread.Corresponds d) m' →
      Shifted d (.stopped m result) (.stopped m' (result.mapError (Fault.shift d)))

namespace Machine.Alike

variable {d : Nat} {m m' : Machine} {front : Array UInt8}

theorem goto (h : m.Alike d (Thread.Shifted d) m') {pc pc' : Nat} (hpc : pc' = pc + d) :
    (m.goto pc).Alike d (Thread.Shifted d) (m'.goto pc') :=
  { h with thread := h.thread.goto hpc }

theorem stop (h : m.Alike d (Thread.Shifted d) m') : m.Alike d (Thread.Corresponds d) m' :=
  { h with thread := .alive h.thread }

theorem execute (p : Program) (h : m.Alike front.size (Thread.Shifted front.size) m') (slot : Slot)
    (position : Nat) (c : Command) :
    (m.execute p slot position c).1.Alike front.size (Thread.Shifted front.size)
        (m'.execute (p.behind front) slot (position + front.size) c).1 ∧
      (m'.execute (p.behind front) slot (position + front.size) c).2 =
        (m.execute p slot position c).2.mapError (Fault.shift front.size) := by
  cases c with
  | flow c =>
      have hr := c.run_behind front p h.thread position
      simp only [Machine.execute]
      generalize c.run p position m.thread = r,
        c.run (p.behind front) (position + front.size) m'.thread = r' at hr ⊢
      cases hr with
      | error fault => exact ⟨h, rfl⟩
      | ok hs => exact ⟨{ h with thread := hs.1 }, congrArg Except.ok hs.2⟩
  | data c =>
      simp only [Machine.execute, h.store, c.run_shift]
      exact ⟨{ h with store := rfl }, trivial⟩
  | event c =>
      have hr := c.run_behind front p h.pool slot
      simp only [Machine.execute]
      generalize c.run p slot m.pool = r, c.run (p.behind front) slot m'.pool = r' at hr ⊢
      cases hr with
      | error fault => exact ⟨h, rfl⟩
      | ok hs => exact ⟨{ h with pool := hs.1 }, congrArg Except.ok hs.2⟩
  | switch id length =>
      have hs := h.thread.switch front p.code position (m.store.var id) length
      simp only [Machine.execute, Store.readVar, h.store, Program.behind]
      refine ⟨{ h with thread := hs.1, store := rfl }, ?_⟩
      rw [hs.2]
      cases (m.thread.switch p.code position (m.store.var id) length).2 <;> rfl
  | world i =>
      simp only [Machine.execute, h.thread.work]
      cases WorldCall.ofInstruction? m.thread.work i with
      | none => exact ⟨h, rfl⟩
      | some call => exact ⟨{ h with calls := congrArg (Array.push · call) h.calls }, rfl⟩

theorem unwind (h : m.Alike d (Thread.Shifted d) m') (position : Nat) :
    (m.unwind position).Shifted d (m'.unwind (position + d)) := by
  have hl := h.thread.level
  simp only [Machine.unwind, hl.openBlocks]
  by_cases hb : m.thread.level.openBlocks = 0
  · simp only [hb, if_true]
    have hg : (m.goto position).Alike d (Thread.Shifted d) (m'.goto (position + d)) := h.goto rfl
    exact .stopped { hg with thread := .alive { hg.thread with alive := rfl, status := rfl } }
  · simp only [hb, if_false]
    have hc := hl.closeBlock?
    generalize m.thread.level.closeBlock? = o, m'.thread.level.closeBlock? = o' at hc ⊢
    cases hc with
    | none => exact .stopped (h.goto rfl).stop
    | some hx =>
        exact .running { h with thread := h.thread.within hx.1 hx.2.dropExitedLoops }

theorem settle (h : m.Alike d (Thread.Shifted d) m') (position : Nat)
    (result : Except Fault Signal) :
    (m.settle position result).Shifted d
      (m'.settle (position + d) (result.mapError (Fault.shift d))) := by
  cases result with
  | error fault => exact .stopped (h.goto rfl).stop
  | ok signal =>
      cases signal with
      | proceed => exact .running h
      | conditionFalse => exact h.unwind position
      | yield =>
          exact .stopped { h with thread := .alive { h.thread with alive := rfl, status := rfl } }
      | finish => exact .stopped { h with thread := .dead }

/-- One iteration on the program behind other bytes does the same. -/
theorem step (p : Program) (h : m.Alike front.size (Thread.Shifted front.size) m') (slot : Slot) :
    (m.step p slot).Shifted front.size (m'.step (p.behind front) slot) := by
  have hdecode := p.instructionAt_behind front m.thread.pc
  rw [← h.thread.pc] at hdecode
  cases hi : p.instructionAt m.thread.pc with
  | error cause =>
      rw [hi] at hdecode
      cases cause with
      | unknownOpcode byte =>
          rw [step_unknown hi, step_unknown hdecode]
          exact .running (h.goto (by rw [h.thread.pc, Nat.add_right_comm]))
      | _ =>
          rw [step_undecodable hi (by simp), step_undecodable hdecode (by simp [DecodeError.shift]),
            h.thread.pc]
          exact .stopped h.stop
  | ok i =>
      rw [hi] at hdecode
      have hg : (m.goto (m.thread.pc + i.width)).Alike front.size (Thread.Shifted front.size)
          (m'.goto (m'.thread.pc + i.width)) := h.goto (by rw [h.thread.pc, Nat.add_right_comm])
      have hx := hg.execute p slot m.thread.pc (.ofInstruction i)
      rw [← h.thread.pc] at hx
      rw [step_instruction hi, step_instruction hdecode, hx.2, h.thread.pc]
      rw [h.thread.pc] at hx
      exact hx.1.settle _ _

end Machine.Alike

end RoomScript
