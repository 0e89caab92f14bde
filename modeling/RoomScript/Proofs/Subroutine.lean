import RoomScript.Proofs.Representation

/-!
# Subroutines leave their callers alone

A thread that calls a subroutine goes on at another call level. From then on, over any number of ticks and
whatever the bytes of the subroutine are, the levels below are not touched: the subroutine may leave blocks
and loops open, call others, sleep or fail, and every step that keeps the thread deeper than its caller
keeps the caller's levels and its part of the call chain. The thread comes out of the subroutine in one of
few ways. It returns, and then stands behind the call with exactly what it had there; or it is killed,
by an instruction or by the host; or another thread starts an event in its slot.
-/
namespace RoomScript

variable {p : Program}

namespace Thread

/-- The thread is in a subroutine that `caller` has called, or deeper. -/
structure CalledFrom (t caller : Thread) : Prop where
  alive : t.isAlive
  depth : caller.depth < t.depth
  levelAt : ∀ i, i ≤ caller.depth → t.levelAt i = caller.levelAt i
  callTrace : t.callTrace.take (caller.depth.val + 1) = caller.callTrace
  /-- The call takes two bytes, and its level stands behind it. -/
  position : t.position caller.depth = caller.pc + 2

/-- The thread is behind the call that `caller` stood at, and has everything that it had there. -/
structure BackIn (t caller : Thread) : Prop where
  alive : t.isAlive
  pc : t.pc = caller.pc + 2
  depth : t.depth = caller.depth
  levels : t.levels = caller.levels
  unused : ∀ i, t.depth < i → t.levelAt i = {}
  callTrace : t.callTrace = caller.callTrace

namespace CalledFrom

variable {t t' caller : Thread}

/-- What happens within the level in use does not reach the level of the caller. -/
theorem alike (h : t.CalledFrom caller) (ha : t.Alike t') (halive : t'.isAlive)
    (htrace : t'.callTrace = t.callTrace) : t'.CalledFrom caller where
  alive := halive
  depth := ha.depth.symm ▸ h.depth
  levelAt i hi := by
    rw [ha.levelAt i (Fin.ne_of_lt (Fin.lt_of_le_of_lt hi h.depth))]
    exact h.levelAt i hi
  callTrace := htrace.symm ▸ h.callTrace
  position := by
    rw [ha.position h.depth]
    exact h.position

theorem calls (h : t.CalledFrom caller) {entry : Nat} {event : UInt8}
    (hc : t.Calls t' entry event) (hw : t.WellFormed) : t'.CalledFrom caller := by
  have hd := hc.depth
  have hlt : caller.depth.val < t.depth.val := h.depth
  exact {
    alive := by
      rw [isAlive, hc.status]
      exact h.alive
    depth := show caller.depth.val < t'.depth.val by omega
    levelAt := fun i hi => by
      rw [hc.levelAt i (Fin.le_trans hi (Fin.le_of_lt h.depth))]
      exact h.levelAt i hi
    callTrace := by
      rw [hc.callTrace, List.take_append_of_le_length]
      · exact h.callTrace
      · rw [hw.callTrace h.alive]
        omega
    position := by
      rw [hc.position (Fin.le_of_lt h.depth)]
      exact h.position }

/-- A return that does not lead back to the caller leads to a level above it. -/
theorem returns (h : t.CalledFrom caller) (hr : t.Returns t') (hw : t.WellFormed)
    (hd : caller.depth < t'.depth) : t'.CalledFrom caller where
  alive := by
    rw [isAlive, hr.status]
    exact h.alive
  depth := hd
  levelAt i hi := by
    rw [hr.levelAt i (Fin.lt_of_le_of_lt hi hd)]
    exact h.levelAt i hi
  callTrace := by
    have hdepth := hr.depth
    have hlt : caller.depth.val < t'.depth.val := hd
    rw [hr.callTrace, List.dropLast_eq_take, hw.callTrace h.alive, List.take_take,
      Nat.min_eq_left (by omega)]
    exact h.callTrace
  position := by
    rw [hr.position (Fin.le_of_lt hd)]
    exact h.position

/-- A return to the level of the caller puts the thread behind the call. -/
theorem backIn (h : t.CalledFrom caller) (ht : t.return? = some t') (hw : t.WellFormed)
    (hcaller : caller.WellFormed) (hd : t'.depth ≤ caller.depth) : t'.BackIn caller := by
  have hr := returns_of_return? ht
  have hdepth := hr.depth
  have hback : t'.depth = caller.depth := by
    have hlt : caller.depth.val < t.depth.val := h.depth
    have hle : t'.depth.val ≤ caller.depth.val := hd
    exact Fin.ext (by omega)
  have hunused := (hw.return? h.alive ht).unused
  have hlevelAt : ∀ i, t'.levelAt i = caller.levelAt i := by
    intro i
    rcases Fin.lt_or_le caller.depth i with hi | hi
    · rw [hunused i (hback.symm ▸ hi), hcaller.unused i hi]
    · rw [levelAt_of_return? ht hw.level (Fin.ne_of_lt (Fin.lt_of_le_of_lt hi h.depth))]
      exact h.levelAt i hi
  exact {
    alive := by
      rw [isAlive, hr.status]
      exact h.alive
    pc := by
      rw [← position_depth, hr.position (Fin.le_refl _), hback]
      exact h.position
    depth := hback
    levels := Vector.ext fun i hi => hlevelAt ⟨i, hi⟩
    unused := hunused
    callTrace := by
      rw [hr.callTrace, List.dropLast_eq_take, hw.callTrace h.alive, hdepth, hback]
      exact h.callTrace }

/-- An iteration that goes on keeps the thread called, or it is the return to the caller. -/
theorem moves (h : t.CalledFrom caller) (hw : t.WellFormed) (hcaller : caller.WellFormed)
    (hm : t.Moves p t') :
    t'.CalledFrom caller ∨
      t'.BackIn caller ∧ ∃ i, p.instructionAt t.pc = .ok i ∧
        (Command.ofInstruction i = .flow .ret ∨ Command.ofInstruction i = .flow .endEvent) := by
  cases hm with
  | @within pc level work hl =>
      exact .inl (h.alike (t.alike_within pc hl.returnAddress_eq work t.status) h.alive rfl)
  | @call i event entry _ _ _ _ ht =>
      have halike := t.alike_within (t.pc + i.width) rfl t.work t.status
      have hwithin := h.alike halike h.alive rfl
      exact .inl (hwithin.calls (calls_of_call? ht)
        (hw.within h.alive _ (hw.level t.depth) t.work (of_decide_eq_true h.alive)))
  | @leave i _ hi hc ht =>
      rcases Fin.lt_or_le caller.depth t'.depth with hd | hd
      · exact .inl (h.returns (returns_of_return? ht) hw hd)
      · exact .inr ⟨h.backIn ht hw hcaller hd, i, hi, hc⟩

/-- An iteration that stops keeps the thread called, or ends it. -/
theorem stops (h : t.CalledFrom caller) {result : Except Fault Outcome}
    (hs : t.Stops p result t') :
    t'.CalledFrom caller ∨ result = .ok .terminated ∧ t' = dead := by
  cases hs with
  | park hr =>
      exact .inl (h.alike (t.alike_within t.pc hr.returnAddress_eq t.work .suspended)
        rfl rfl)
  | fail hr =>
      exact .inl (h.alike (t.alike_within t.pc hr.returnAddress_eq t.work t.status)
        h.alive rfl)
  | finish => exact .inr ⟨rfl, rfl⟩

end CalledFrom

theorem calledFrom_of_call? {caller t : Thread} {i : Instruction} {entry : Nat} {event : UInt8}
    (hc : Command.ofInstruction i = .flow (.gosub event)) (ha : caller.isAlive)
    (hw : caller.WellFormed)
    (ht : ({ caller with pc := caller.pc + i.width } : Thread).call? entry event = some t) :
    t.CalledFrom caller := by
  have hcalls := calls_of_call? ht
  have hd := hcalls.depth
  exact {
    alive := by
      rw [isAlive, hcalls.status]
      exact ha
    depth := Nat.lt_of_lt_of_eq (Nat.lt_succ_self _) hd.symm
    levelAt := hcalls.levelAt
    callTrace := by
      rw [hcalls.callTrace]
      exact List.take_left' (hw.callTrace ha)
    position := by
      rw [hcalls.position (Fin.le_refl _)]
      exact (position_depth _).trans (congrArg (caller.pc + ·) (Command.width_of_gosub hc)) }

end Thread

/-- A call that succeeds puts the thread into the subroutine. -/
theorem Machine.calledFrom_of_gosub {slot : Slot} {m m' : Machine} {i : Instruction} {event : UInt8}
    (hi : p.instructionAt m.thread.pc = .ok i)
    (hc : Command.ofInstruction i = .flow (.gosub event)) (ha : m.thread.isAlive)
    (hw : m.thread.WellFormed) (hs : m.step p slot = .running m') :
    m'.thread.CalledFrom m.thread := by
  rw [step_flow hi hc] at hs
  simp only [FlowCommand.run] at hs
  cases he : p.entry? event with
  | none =>
      rw [he] at hs
      cases hs
  | some entry =>
      rw [he] at hs
      cases ht : ({ m.thread with pc := m.thread.pc + i.width } : Thread).call? entry event with
      | none =>
          simp only [ht] at hs
          cases hs
      | some t =>
          simp only [ht] at hs
          cases hs
          exact Thread.calledFrom_of_call? hc ha hw ht

namespace Phase

/-- The thread of a slot is about to carry out a command of a program. -/
inductive Dispatches (p : Program) (slot : Slot) : Phase → Command → Prop
  | intro {later : List Slot} {m : Machine} {i : Instruction} :
      p.instructionAt m.thread.pc = .ok i →
      Dispatches p slot (.running p slot later m) (Command.ofInstruction i)

/-- How a thread comes out of a subroutine. -/
inductive ComesOut (slot : Slot) (caller : Thread) (φ ψ : Phase) : Prop
  | returned {p : Program} {command : FlowCommand} :
      Dispatches p slot φ (.flow command) → command = .ret ∨ command = .endEvent →
      (ψ.thread slot).BackIn caller → ComesOut slot caller φ ψ
  /-- An instruction kills the slot, one of the thread itself or of another. -/
  | killed {p : Program} {killer : Slot} {number : UInt8} :
      Dispatches p killer φ (.event (.kill number)) → number.toNat = slot.val →
      ψ.thread slot = Thread.dead → ComesOut slot caller φ ψ
  /-- Another thread names the slot for an event. -/
  | replaced {p : Program} {starter : Slot} {requested event : UInt8} {entry : Nat} :
      starter ≠ slot → Dispatches p starter φ (.event (.exec requested event)) →
      requested.toNat = slot.val → p.entry? event = some entry →
      ψ.thread slot = Thread.start entry event → ComesOut slot caller φ ψ
  /-- The host kills all threads. -/
  | reset {it : Interpreter} :
      φ = .idle it → (∀ slot, ψ.thread slot = Thread.dead) → ComesOut slot caller φ ψ

section

variable {slot other : Slot} {later : List Slot} {m m' : Machine} {caller : Thread} {φ ψ : Phase}
  {programs : Program → Prop}

theorem thread_running_self (p : Program) (slot : Slot) (later : List Slot) (m : Machine) :
    (running p slot later m).thread slot = m.thread := if_pos rfl

theorem thread_running_of_ne (h : other ≠ slot) (p : Program) (later : List Slot) (m : Machine) :
    (running p other later m).thread slot = m.pool.thread slot := if_neg h

/-- What another thread can do to one that is alive: nothing, kill it, or start an event in its place. -/
theorem comesOut_of_other (ho : other ≠ slot) (ha : (m.pool.thread slot).isAlive)
    (hψ : ψ.thread slot = (m.step p other).machine.pool.thread slot) :
    ψ.thread slot = m.pool.thread slot ∨ ComesOut slot caller (running p other later m) ψ := by
  rw [Machine.pool_step] at hψ
  cases he : m.effect? p other with
  | none =>
      rw [he] at hψ
      exact .inl hψ
  | some e =>
      rw [he, Option.elim_some, Effect.apply] at hψ
      by_cases hslot : e.slot = slot
      · subst hslot
        rw [Pool.thread_put_self] at hψ
        obtain ⟨i, c, hi, hc, he⟩ := Machine.effect?_eq_some he
        have hd : Dispatches p other (running p other later m) (.event c) := hc ▸ .intro hi
        cases e with
        | start place entry event =>
            obtain ⟨requested, rfl, hentry, hplace⟩ := EventCommand.effect?_start he
            rcases (Pool.place?_eq_some hplace).2 with hnamed | ⟨_, hdead⟩
            · exact .inr (.replaced ho hd hnamed hentry hψ)
            · exact absurd ha hdead
        | kill target =>
            obtain ⟨number, rfl, hnumber, _⟩ := EventCommand.effect?_kill he
            exact .inr (.killed hd hnumber hψ)
      · rw [Pool.thread_put_of_ne hslot] at hψ
        exact .inl hψ

/-- What the host can do to a thread that is alive while it has its turn: nothing, or kill it together with
all others. -/
theorem comesOut_of_host {it : Interpreter} {request : Request} (hr : ¬request.RunsThreads)
    (ha : (it.threads.thread slot).isAlive) :
    (it.serve p request).interpreter.threads.thread slot = it.threads.thread slot ∨
      ComesOut slot caller (.idle it) (.idle (it.serve p request).interpreter) := by
  cases request with
  | startEvent event =>
      refine .inl ?_
      simp only [Interpreter.serve, Interpreter.startEvent]
      cases p.entry? event with
      | none => rfl
      | some entry =>
          cases hplace : it.threads.place? none anySlot with
          | none => rfl
          | some place =>
              have hne : place ≠ slot := by
                rintro rfl
                rcases (Pool.place?_eq_some hplace).2 with hnamed | ⟨_, hdead⟩
                · have hlt := place.isLt
                  rw [← hnamed] at hlt
                  exact absurd hlt (by decide)
                · exact hdead ha
              exact Pool.thread_put_of_ne hne _
  | tick => exact absurd trivial hr
  | runThread number => exact absurd trivial hr
  | resetThreads => exact .inr (.reset rfl Pool.thread_vacant)
  | reset => exact .inr (.reset rfl Pool.thread_vacant)
  | store request => exact .inl rfl

/-- An iteration of another thread. -/
theorem calledFrom_of_other (ho : other ≠ slot) (hc : (m.pool.thread slot).CalledFrom caller)
    (hψ : ψ.thread slot = (m.step p other).machine.pool.thread slot) :
    (ψ.thread slot).CalledFrom caller ∨ ComesOut slot caller (running p other later m) ψ := by
  rcases comesOut_of_other ho hc.alive hψ with hsame | hout
  · exact .inl (hsame.symm ▸ hc)
  · exact .inr hout

/-- An iteration of the thread itself that goes on. -/
theorem calledFrom_of_running (hw : m.thread.WellFormed) (hcaller : caller.WellFormed)
    (hc : m.thread.CalledFrom caller) (hs : m.step p slot = .running m')
    (hψ : ψ.thread slot = m'.thread) :
    (ψ.thread slot).CalledFrom caller ∨ ComesOut slot caller (running p slot later m) ψ := by
  rcases hc.moves hw hcaller (Machine.moves_of_running hs) with hkept | ⟨hback, i, hi, hr⟩
  · exact .inl (hψ.symm ▸ hkept)
  · have hd : Dispatches p slot (running p slot later m) (Command.ofInstruction i) := .intro hi
    rw [← hψ] at hback
    rcases hr with hret | hend
    · exact .inr (.returned (hret ▸ hd) (.inl rfl) hback)
    · exact .inr (.returned (hend ▸ hd) (.inr rfl) hback)

/-- An iteration of the thread itself that stops. -/
theorem calledFrom_of_stopped {result : Except Fault Outcome} (hc : m.thread.CalledFrom caller)
    (hs : m.step p slot = .stopped m' result) (hψ : ψ.thread slot = m'.thread) :
    (ψ.thread slot).CalledFrom caller ∨ ComesOut slot caller (running p slot later m) ψ := by
  rcases hc.stops (Machine.stops_of_stopped hs) with hkept | ⟨rfl, hdead⟩
  · exact .inl (hψ.symm ▸ hkept)
  · obtain ⟨i, hi, hf⟩ := Machine.finishes_of_terminated hs
    have hd : Dispatches p slot (running p slot later m) (Command.ofInstruction i) := .intro hi
    generalize Command.ofInstruction i = c at hd hf
    cases hf with
    | endEvent hzero =>
        have hdeep : caller.depth.val < m.thread.depth.val := hc.depth
        omega
    | kill hnumber => exact .inr (.killed hd hnumber (hψ.trans hdead))

/-- The last iteration of a run, after which the running thread is back in its slot. -/
theorem calledFrom_of_interpreter {result : Except Fault Outcome}
    (hc : ((running p other later m).thread slot).CalledFrom caller)
    (hs : m.step p other = .stopped m' result)
    (hψ : ψ.thread slot = (m'.interpreter other).threads.thread slot) :
    (ψ.thread slot).CalledFrom caller ∨ ComesOut slot caller (running p other later m) ψ := by
  by_cases ho : other = slot
  · subst ho
    rw [thread_running_self] at hc
    exact calledFrom_of_stopped hc hs (hψ.trans (Pool.thread_put_self _ _ _))
  · rw [thread_running_of_ne ho] at hc
    refine calledFrom_of_other ho hc ?_
    rw [hψ, hs]
    exact Pool.thread_put_of_ne ho _

/-- One step of a session keeps a thread in the subroutine that was called, unless the thread comes out of
it by this step. -/
theorem Next.calledFrom (h : φ.Next programs ψ) (hw : (φ.thread slot).WellFormed)
    (hcaller : caller.WellFormed) (hc : (φ.thread slot).CalledFrom caller) :
    (ψ.thread slot).CalledFrom caller ∨ ComesOut slot caller φ ψ := by
  cases h with
  | serve it hp hr =>
      rcases comesOut_of_host hr hc.alive with hsame | hout
      · rw [thread, hsame]
        exact .inl hc
      · exact .inr hout
  | tick it hp => exact .inl hc
  | runThread it slot hp => exact .inl hc
  | pass _ => exact .inl hc
  | done p it => exact .inl hc
  | @turn p other later it ha =>
      by_cases ho : other = slot
      · subst ho
        rw [thread_running_self]
        exact .inl { hc with alive := rfl }
      · rw [thread_running_of_ne ho]
        exact .inl hc
  | @step p other later m m' hs =>
      by_cases ho : other = slot
      · subst ho
        rw [thread_running_self] at hw hc
        exact calledFrom_of_running hw hcaller hc hs (thread_running_self _ _ _ _)
      · rw [thread_running_of_ne ho] at hc
        refine calledFrom_of_other ho hc ?_
        rw [thread_running_of_ne ho, hs]
        rfl
  | stop hs => exact calledFrom_of_interpreter hc hs rfl
  | fail hs => exact calledFrom_of_interpreter hc hs rfl

/-- A path of a session on which the thread of a slot stays deeper than a call level. -/
def Deeper (programs : Program → Prop) (slot : Slot) (level : Fin maxCallLevels) :
    Phase → Phase → Prop :=
  Relation.ReflTransGen fun φ ψ => φ.Next programs ψ ∧ level < (ψ.thread slot).depth

theorem Deeper.path {level : Fin maxCallLevels} (h : Deeper programs slot level φ ψ) :
    Relation.ReflTransGen (Next programs) φ ψ :=
  Relation.ReflTransGen.mono (fun _ _ hn => hn.1) _ _ h

/-- However a thread comes out of a subroutine, it is not deeper than its caller then. -/
theorem ComesOut.depth_le (h : ComesOut slot caller φ ψ) : (ψ.thread slot).depth ≤ caller.depth := by
  cases h with
  | returned _ _ hback => exact Fin.le_of_eq hback.depth
  | killed _ _ hdead => exact hdead ▸ Fin.zero_le _
  | replaced _ _ _ _ hstart => exact hstart ▸ Fin.zero_le _
  | reset _ hdead => exact hdead slot ▸ Fin.zero_le _

/-- A thread is in the subroutine for as long as it stays deeper than its caller. -/
theorem Deeper.calledFrom (h : Deeper programs slot caller.depth φ ψ)
    (hr : φ.Reachable programs) (hcaller : caller.WellFormed)
    (hc : (φ.thread slot).CalledFrom caller) : (ψ.thread slot).CalledFrom caller := by
  induction h with
  | refl => exact hc
  | @tail φ' ψ' hpath hlast ih =>
      have hφ : φ'.Reachable programs := hr.trans (Deeper.path hpath)
      have hw := hφ.all (fun p _ => Thread.wellFormed_invariant p) .of_dead slot
      rcases hlast.1.calledFrom hw hcaller ih with hkept | hout
      · exact hkept
      · exact absurd hlast.2 (Fin.not_lt.mpr hout.depth_le)

end

/-- Whatever programs a session runs: once a thread has called a subroutine, the call levels up to its own
and its call chain are what they were at the call for as long as the thread is deeper, and the first step
after which it is not deeper brings it back behind the call with all its levels as they were, or kills it,
or starts another event in its slot. -/
theorem subroutine_isolated {programs : Program → Prop} {slot : Slot} {later : List Slot}
    {m m' : Machine} {i : Instruction} {event : UInt8} {φ : Phase}
    (h : Phase.Reachable programs (.running p slot later m))
    (hi : p.instructionAt m.thread.pc = .ok i)
    (hc : Command.ofInstruction i = .flow (.gosub event))
    (hs : m.step p slot = .running m')
    (hφ : Deeper programs slot m.thread.depth (.running p slot later m') φ) :
    (φ.thread slot).CalledFrom m.thread ∧
      ∀ ψ, φ.Next programs ψ →
        m.thread.depth < (ψ.thread slot).depth ∨ ComesOut slot m.thread φ ψ := by
  have hall := fun p (_ : programs p) => Thread.wellFormed_invariant p
  have hk := h.keeps hall .of_dead
  have hstart : Phase.Reachable programs (.running p slot later m') := h.tail (.step hs)
  have hcalled : ((running p slot later m').thread slot).CalledFrom m.thread := by
    rw [thread_running_self]
    exact Machine.calledFrom_of_gosub hi hc hk.alive hk.thread hs
  have hcalledφ := hφ.calledFrom hstart hk.thread hcalled
  refine ⟨hcalledφ, fun ψ hn => ?_⟩
  have hreach : φ.Reachable programs := hstart.trans hφ.path
  rcases hn.calledFrom (hreach.all hall .of_dead slot) hk.thread hcalledφ with hkept | hout
  · exact .inl hkept.depth
  · exact .inr hout

/-- An event that calls a subroutine from inside a conditional block; the subroutine opens a block and a
loop and returns from inside them. -/
def careless : Program :=
  .ofFunctions [[Line.ifelCk, .gosub 1, .evtEnd].flatMap Line.encode,
    [Line.ifelCk, .forLoop 2, .ret].flatMap Line.encode]

theorem subroutine_isolated_careless :
    ∃ (m m' : Machine) (i : Instruction) (φ ψ : Phase),
      Phase.Reachable (· = careless) (.running careless 0 [] m) ∧
      careless.instructionAt m.thread.pc = .ok i ∧
      Command.ofInstruction i = .flow (.gosub 1) ∧ m.step careless 0 = .running m' ∧
      Deeper (· = careless) 0 m.thread.depth (.running careless 0 [] m') φ ∧
      (φ.thread 0).level.openLoops = 1 ∧ (φ.thread 0).CalledFrom m.thread ∧
      φ.Next (· = careless) ψ ∧ ComesOut 0 m.thread φ ψ ∧
      (ψ.thread 0).pc = 6 ∧ (ψ.thread 0).level.openBlocks = 1 := by
  let it := (({} : Interpreter).serve careless (.startEvent 0)).interpreter
  let reached (n : Nat) : Machine := ((it.machine 0).runFor careless 0 n).1
  have hit : it.Reachable (· = careless) := .serve (.startEvent 0) rfl .fresh
  have hturn : Phase.Reachable (· = careless) (.running careless 0 [] (it.machine 0)) :=
    ((Phase.reachable_idle hit).tail (.runThread it 0 rfl)).tail (.turn rfl)
  have hfirst : (reached 0).step careless 0 = .running (reached 1) :=
    Machine.step_runFor (by decide +kernel)
  have hcall : (reached 1).step careless 0 = .running (reached 2) :=
    Machine.step_runFor (by decide +kernel)
  have hblock : (reached 2).step careless 0 = .running (reached 3) :=
    Machine.step_runFor (by decide +kernel)
  have hloop : (reached 3).step careless 0 = .running (reached 4) :=
    Machine.step_runFor (by decide +kernel)
  have hreturn : (reached 4).step careless 0 = .running (reached 5) :=
    Machine.step_runFor (by decide +kernel)
  have hreach : Phase.Reachable (· = careless) (.running careless 0 [] (reached 1)) :=
    hturn.tail (.step hfirst)
  have hi : careless.instructionAt (reached 1).thread.pc = .ok ⟨.gosub, [1], rfl⟩ := by
    decide +kernel
  have hdeeper : Deeper (· = careless) 0 (reached 1).thread.depth
      (.running careless 0 [] (reached 2)) (.running careless 0 [] (reached 4)) :=
    .tail (.tail .refl ⟨.step hblock, by decide +kernel⟩) ⟨.step hloop, by decide +kernel⟩
  have hisolated := subroutine_isolated hreach hi rfl hcall hdeeper
  refine ⟨reached 1, reached 2, _, _, .running careless 0 [] (reached 5), hreach, hi, rfl, hcall,
    hdeeper, by decide +kernel, hisolated.1, .step hreturn, ?_, by decide +kernel,
    by decide +kernel⟩
  rcases hisolated.2 _ (.step hreturn) with hdeep | hout
  · exact absurd hdeep (by decide +kernel)
  · exact hout

end Phase

end RoomScript
