import RoomScript.Proofs.Sight

/-!
# Loop slots that are not open

Closing a loop, a switch or a sleep leaves what it held in its slot, above the slots that are open. Nothing
looks there: a slot is written when it is opened before it is read. So two machines whose threads differ in such
slots alone carry out the same instructions, make the same calls, do the same to the store and to the other
slots, and stop in the same way, and their threads still differ in such slots alone.
-/
namespace RoomScript

/-- The second level has the same loops open and is the same in everything but loops. -/
inductive CallLevel.SameOpen (l : CallLevel) : CallLevel → Prop
  | intro (loops : Vector LoopSlot loopSlots) :
      (∀ i, i < l.openLoops → loops[i]? = l.loops[i]?) → SameOpen l { l with loops }

/-- The second thread has the same loops open on each of its levels and is the same in everything but loops. -/
inductive Thread.SameOpen (t : Thread) : Thread → Prop
  | intro (levels : Vector CallLevel maxCallLevels) :
      (∀ n (hn : n < maxCallLevels), t.levels[n].SameOpen levels[n]) → SameOpen t { t with levels }

/-- The pools hold the same threads in all slots but one. -/
def Pool.SameOthers (slot : Slot) (pool pool' : Pool) : Prop :=
  ∀ k, k ≠ slot → pool'.thread k = pool.thread k

/-- The machines differ at most in loop slots of their threads that are not open. -/
structure Machine.SameOpen (slot : Slot) (m m' : Machine) : Prop where
  thread : m.thread.SameOpen m'.thread
  pool : m.pool.SameOthers slot m'.pool
  store : m'.store = m.store
  calls : m'.calls = m.calls

/-- Two iterations that both go on, or both stop with the same result. -/
inductive Progress.SameOpen (slot : Slot) : Progress → Progress → Prop
  | running {m m' : Machine} : m.SameOpen slot m' → SameOpen slot (.running m) (.running m')
  | stopped {m m' : Machine} {result : Except Fault Outcome} :
      m.SameOpen slot m' → SameOpen slot (.stopped m result) (.stopped m' result)

namespace CallLevel.SameOpen

variable {l l' : CallLevel} {slot : LoopSlot}

theorem refl (l : CallLevel) : l.SameOpen l := .intro l.loops fun _ _ => rfl

theorem openBlocks (h : l.SameOpen l') : l'.openBlocks = l.openBlocks := by
  cases h
  rfl

theorem returnAddress (h : l.SameOpen l') : l'.returnAddress = l.returnAddress := by
  cases h
  rfl

theorem openBlock? (h : l.SameOpen l') (target : Nat) :
    Option.Rel SameOpen (l.openBlock? target) (l'.openBlock? target) := by
  obtain ⟨loops, hloops⟩ := h
  simp only [CallLevel.openBlock?]
  split
  · exact .some (.intro loops hloops)
  · exact .none

theorem closeBlock? (h : l.SameOpen l') :
    Option.Rel (fun x x' => x'.1 = x.1 ∧ x.2.SameOpen x'.2) l.closeBlock? l'.closeBlock? := by
  obtain ⟨loops, hloops⟩ := h
  simp only [CallLevel.closeBlock?]
  split
  · exact .none
  · exact .some ⟨rfl, .intro loops hloops⟩

theorem resync (h : l.SameOpen l') : l.resyncJumpTop.SameOpen l'.resyncJumpTop := by
  obtain ⟨loops, hloops⟩ := h
  exact .intro loops hloops

/-- The slot that is opened is written on both levels. -/
theorem pushLoop? (h : l.SameOpen l') (slot : LoopSlot) :
    Option.Rel SameOpen (l.pushLoop? slot) (l'.pushLoop? slot) := by
  obtain ⟨loops, hloops⟩ := h
  simp only [CallLevel.pushLoop?]
  split
  · rename_i hroom
    refine .some (.intro (loops.set l.openLoops slot hroom) fun i hi => ?_)
    have hi : i < l.openLoops + 1 := hi
    by_cases he : i = l.openLoops
    · subst he
      rw [Vector.getElem?_set_self, Vector.getElem?_set_self]
    · rw [Vector.getElem?_set_ne _ (Ne.symm he), Vector.getElem?_set_ne _ (Ne.symm he)]
      exact hloops i (by omega)
  · exact .none

theorem currentLoop? (h : l.SameOpen l') : l'.currentLoop? = l.currentLoop? := by
  obtain ⟨loops, hloops⟩ := h
  simp only [CallLevel.currentLoop?]
  split
  · rfl
  · exact hloops _ (by omega)

theorem setLoop (h : l.SameOpen l') (slot : LoopSlot) : (l.setLoop slot).SameOpen (l'.setLoop slot) := by
  obtain ⟨loops, hloops⟩ := h
  refine .intro (loops.setIfInBounds (l.openLoops - 1) slot) fun i hi => ?_
  have hi : i < l.openLoops := hi
  simp only [CallLevel.setLoop, Vector.getElem?_setIfInBounds, hloops i hi]

theorem popLoop (h : l.SameOpen l') : l.popLoop.SameOpen l'.popLoop := by
  obtain ⟨loops, hloops⟩ := h
  refine .intro loops fun i hi => ?_
  have hi : i < l.openLoops - 1 := hi
  exact hloops i (by omega)

/-- Leaving a loop early takes the number of open blocks from a slot that is open. -/
theorem breakOut (h : l.SameOpen l') (blocks : Nat) :
    ({ l with openBlocks := blocks }.resyncJumpTop.popLoop).SameOpen
      { l' with openBlocks := blocks }.resyncJumpTop.popLoop := by
  obtain ⟨loops, hloops⟩ := h
  have hset : SameOpen { l with openBlocks := blocks } { l with loops, openBlocks := blocks } :=
    .intro loops hloops
  exact hset.resync.popLoop

theorem dropExitedLoops (h : l.SameOpen l') : l.dropExitedLoops.SameOpen l'.dropExitedLoops := by
  obtain ⟨loops, hloops⟩ := h
  have hsame : loopsUnder loops l.openBlocks l.openLoops =
      loopsUnder l.loops l.openBlocks l.openLoops :=
    loopsUnder_congr _ fun i hi => by rw [hloops i hi]
  simp only [CallLevel.dropExitedLoops, hsame]
  refine .intro loops fun i hi => hloops i ?_
  exact Nat.lt_of_lt_of_le hi l.dropsLoops.openLoops

/-- Opening a loop and closing it again leaves the open ones. -/
theorem of_pushLoop? (h : l.pushLoop? slot = some l') : l'.popLoop.SameOpen l := by
  unfold CallLevel.pushLoop? at h
  split at h
  · rename_i hroom
    cases h
    exact .intro l.loops fun i hi => (Vector.getElem?_set_ne hroom (Nat.ne_of_gt hi)).symm
  · cases h

end CallLevel.SameOpen

/-- The same fault, or threads that differ at most in loop slots that are not open, with the same signal. -/
inductive Thread.SameResult :
    Except Fault (Thread × Signal) → Except Fault (Thread × Signal) → Prop
  | ok {t t' : Thread} (signal : Signal) :
      t.SameOpen t' → SameResult (.ok (t, signal)) (.ok (t', signal))
  | error (fault : Fault) : SameResult (.error fault) (.error fault)

namespace Thread.SameOpen

variable {t t' : Thread}

theorem refl (t : Thread) : t.SameOpen t := .intro t.levels fun _ _ => .refl _

theorem level (h : t.SameOpen t') : t.level.SameOpen t'.level := by
  obtain ⟨levels, hlevels⟩ := h
  exact hlevels t.depth t.depth.isLt

theorem pc (h : t.SameOpen t') : t'.pc = t.pc := by
  cases h
  rfl

theorem depth (h : t.SameOpen t') : t'.depth = t.depth := by
  cases h
  rfl

theorem work (h : t.SameOpen t') : t'.work = t.work := by
  cases h
  rfl

theorem goto (h : t.SameOpen t') (pc : Nat) : SameOpen { t with pc } { t' with pc } := by
  obtain ⟨levels, hlevels⟩ := h
  exact .intro levels hlevels

theorem working (h : t.SameOpen t') (work : WorkTarget) :
    SameOpen { t with work } { t' with work } := by
  obtain ⟨levels, hlevels⟩ := h
  exact .intro levels hlevels

theorem become (h : t.SameOpen t') (status : ThreadStatus) :
    SameOpen { t with status } { t' with status } := by
  obtain ⟨levels, hlevels⟩ := h
  exact .intro levels hlevels

/-- One level may change in both threads. -/
theorem set {levels levels' : Vector CallLevel maxCallLevels} {level level' : CallLevel} {k : Nat}
    (h : ∀ n (hn : n < maxCallLevels), levels[n].SameOpen levels'[n]) (hk : k < maxCallLevels)
    (hl : level.SameOpen level') (n : Nat) (hn : n < maxCallLevels) :
    (levels.set k level hk)[n].SameOpen (levels'.set k level' hk)[n] := by
  simp only [Vector.getElem_set]
  split
  · exact hl
  · exact h n hn

theorem setLevel (h : t.SameOpen t') {level level' : CallLevel} (hl : level.SameOpen level') :
    (t.setLevel level).SameOpen (t'.setLevel level') := by
  obtain ⟨levels, hlevels⟩ := h
  exact .intro _ (set hlevels t.depth.isLt hl)

theorem within (h : t.SameOpen t') (pc : Nat) {level level' : CallLevel}
    (hl : level.SameOpen level') : (t.within pc level).SameOpen (t'.within pc level') := by
  obtain ⟨levels, hlevels⟩ := h
  exact .intro _ (set hlevels t.depth.isLt hl)

theorem call? (h : t.SameOpen t') (entry : Nat) (event : UInt8) :
    Option.Rel SameOpen (t.call? entry event) (t'.call? entry event) := by
  obtain ⟨levels, hlevels⟩ := h
  simp only [Thread.call?]
  split
  · rename_i hroom
    exact .some (.intro _ (set hlevels hroom (.refl _)))
  · exact .none

theorem return? (h : t.SameOpen t') : Option.Rel SameOpen t.return? t'.return? := by
  obtain ⟨levels, hlevels⟩ := h
  have haddress := (hlevels t.depth t.depth.isLt).returnAddress
  simp only [Thread.return?, Thread.level, Fin.getElem_fin]
  split
  · exact .none
  · have hset := set hlevels t.depth.isLt (.refl {})
    rw [haddress]
    exact .some (.intro _ (set hset _ (hset _ _).resync))

theorem openIf (h : t.SameOpen t') (position : Nat) (length : UInt16) :
    SameResult (t.openIf position length) (t'.openIf position length) := by
  have ho := h.level.openBlock? (t.pc + length.toNat)
  simp only [Thread.openIf, h.pc]
  generalize t.level.openBlock? _ = o, t'.level.openBlock? _ = o' at ho ⊢
  cases ho with
  | none => exact .error _
  | some hl => exact .ok _ (h.setLevel hl)

theorem closeIf (h : t.SameOpen t') (position : Nat) (length : UInt16) :
    SameResult (t.closeIf position length) (t'.closeIf position length) := by
  have hc := h.level.closeBlock?
  simp only [Thread.closeIf, h.pc]
  generalize t.level.closeBlock? = o, t'.level.closeBlock? = o' at hc ⊢
  cases hc with
  | none => exact .error _
  | some hl => exact .ok _ (h.within _ hl.2)

theorem openLoop (h : t.SameOpen t') (position : Nat) (counter : UInt16) (target : Nat) :
    SameResult (t.openLoop position counter target) (t'.openLoop position counter target) := by
  have hp := h.level.pushLoop? (t.level.slot counter t.pc target)
  simp only [CallLevel.slot] at hp
  simp only [Thread.openLoop, h.pc, h.level.openBlocks]
  generalize t.level.pushLoop? _ = o, t'.level.pushLoop? _ = o' at hp ⊢
  cases hp with
  | none => exact .error _
  | some hl => exact .ok _ (h.setLevel hl)

theorem leave (h : t.SameOpen t') (position : Nat) :
    SameResult (t.leave position) (t'.leave position) := by
  have hr := h.return?
  simp only [Thread.leave]
  generalize t.return? = o, t'.return? = o' at hr ⊢
  cases hr with
  | none => exact .error _
  | some ht => exact .ok _ ht

/-- A switch lands at the same place, or is stuck there on both threads. -/
theorem switch (h : t.SameOpen t') (code : Array UInt8) (position : Nat) (value : Int16)
    (length : UInt16) :
    (t.switch code position value length).1.SameOpen (t'.switch code position value length).1 ∧
      (t'.switch code position value length).2 = (t.switch code position value length).2 := by
  have hp := h.level.pushLoop? (t.level.slot 0 t.pc (t.pc + length.toNat))
  simp only [CallLevel.slot] at hp
  simp only [Thread.switch, h.pc, h.level.openBlocks]
  generalize t.level.pushLoop? _ = o, t'.level.pushLoop? _ = o' at hp ⊢
  cases hp with
  | none => exact ⟨h, rfl⟩
  | @some l l' hl =>
      have hopened := h.setLevel hl
      cases Landing.find code value t.pc with
      | error fault => exact ⟨hopened, rfl⟩
      | ok landing =>
          cases landing with
          | body target => exact ⟨h.within target hl, rfl⟩
          | past target => exact ⟨hopened.within target hl.popLoop, rfl⟩

end Thread.SameOpen

/-- A flow command does the same on both threads, or fails on both. -/
theorem FlowCommand.run_open {t t' : Thread} (h : t.SameOpen t') (p : Program) (position : Nat)
    (c : FlowCommand) : Thread.SameResult (c.run p position t) (c.run p position t') := by
  have hloop := h.level.currentLoop?
  cases c with
  | endEvent =>
      simp only [run, h.depth]
      split
      · exact .ok _ h
      · exact h.leave position
  | ret => exact h.leave position
  | gosub event =>
      simp only [run]
      cases p.entry? event with
      | none => exact .error _
      | some entry =>
          have hc := h.call? entry event
          simp only
          generalize t.call? entry event = o, t'.call? entry event = o' at hc ⊢
          cases hc with
          | none => exact .error _
          | some ht => exact .ok _ ht
  | openIf length => exact h.openIf position length
  | openElse length => exact h.closeIf position length
  | closeIf => exact h.closeIf position 0
  | sleep ticks =>
      simp only [run, h.pc]
      exact h.openLoop position ticks t.pc
  | sleeping =>
      simp only [run, hloop]
      cases t.level.currentLoop? with
      | none => exact .error _
      | some slot =>
          by_cases hz : slot.counter = 0
          · simp only [hz, if_true]
            exact .ok _ (h.setLevel h.level.popLoop)
          · simp only [hz, if_false]
            exact .ok _ (h.within position (h.level.setLoop _))
  | openFor length count =>
      simp only [run, h.pc]
      split
      · exact .ok _ (h.goto _)
      · exact h.openLoop position count _
  | next =>
      simp only [run, hloop]
      cases t.level.currentLoop? with
      | none => exact .error _
      | some slot =>
          by_cases hn : 1 < slot.counter
          · simp only [hn, if_true]
            exact .ok _ (h.within _ (h.level.setLoop _))
          · simp only [hn, if_false]
            exact .ok _ (h.setLevel (h.level.setLoop _).popLoop)
  | closeSwitch =>
      simp only [run, hloop]
      cases t.level.currentLoop? with
      | none => exact .error _
      | some slot => exact .ok _ (h.setLevel h.level.popLoop)
  | breakOut =>
      simp only [run, hloop]
      cases t.level.currentLoop? with
      | none => exact .error _
      | some slot => exact .ok _ (h.within _ (h.level.breakOut _))
  | workSet target => exact .ok _ (h.working target)

namespace Pool.SameOthers

variable {pool pool' : Pool} {slot : Slot}

theorem sameAlive (h : pool.SameOthers slot pool') : pool.SameAlive slot pool' :=
  fun k hk => congrArg Thread.isAlive (h k hk)

theorem put (h : pool.SameOthers slot pool') (place : Slot) (t : Thread) :
    (pool.put place t).SameOthers slot (pool'.put place t) := by
  intro k hk
  by_cases he : place = k
  · rw [he, thread_put_self, thread_put_self]
  · rw [thread_put_of_ne he, thread_put_of_ne he]
    exact h k hk

end Pool.SameOthers

/-- The same fault, or pools with the same threads in all slots but one, with the same signal. -/
inductive Pool.SameResult (slot : Slot) :
    Except Fault (Pool × Signal) → Except Fault (Pool × Signal) → Prop
  | ok {pool pool' : Pool} (signal : Signal) :
      pool.SameOthers slot pool' → SameResult slot (.ok (pool, signal)) (.ok (pool', signal))
  | error (fault : Fault) : SameResult slot (.error fault) (.error fault)

/-- An event command does not look at the slot of the thread that carries it out. -/
theorem EventCommand.run_others {pool pool' : Pool} {slot : Slot} (h : pool.SameOthers slot pool')
    (p : Program) (c : EventCommand) :
    Pool.SameResult slot (c.run p slot pool) (c.run p slot pool') := by
  cases c with
  | exec requested event =>
      simp only [run, h.sameAlive.place? requested]
      cases p.entry? event with
      | none => exact .error _
      | some entry =>
          cases pool.place? (some slot) requested with
          | none => exact .ok _ h
          | some place => exact .ok _ (h.put place _)
  | kill number =>
      simp only [run]
      split
      · exact .ok _ h
      · cases Pool.slot? number.toNat with
        | none => exact .ok _ h
        | some target => exact .ok _ (h.put target _)

namespace Machine.SameOpen

variable {p : Program} {slot : Slot} {m m' : Machine}

theorem goto (h : m.SameOpen slot m') (position : Nat) :
    (m.goto position).SameOpen slot (m'.goto position) :=
  { h with thread := h.thread.goto position }

theorem park (h : m.SameOpen slot m') : m.park.SameOpen slot m'.park :=
  { h with thread := h.thread.become .suspended }

theorem execute (h : m.SameOpen slot m') (p : Program) (position : Nat) (c : Command) :
    (m.execute p slot position c).1.SameOpen slot (m'.execute p slot position c).1 ∧
      (m'.execute p slot position c).2 = (m.execute p slot position c).2 := by
  cases c with
  | flow c =>
      have hr := c.run_open h.thread p position
      simp only [Machine.execute]
      generalize c.run p position m.thread = r, c.run p position m'.thread = r' at hr ⊢
      cases hr with
      | error fault => exact ⟨h, rfl⟩
      | ok signal ht => exact ⟨{ h with thread := ht }, rfl⟩
  | data c =>
      simp only [Machine.execute, h.store]
      exact ⟨{ h with store := rfl }, trivial⟩
  | event c =>
      have hr := c.run_others h.pool p
      simp only [Machine.execute]
      generalize c.run p slot m.pool = r, c.run p slot m'.pool = r' at hr ⊢
      cases hr with
      | error fault => exact ⟨h, rfl⟩
      | ok signal hpool => exact ⟨{ h with pool := hpool }, rfl⟩
  | switch id length =>
      have hs := h.thread.switch p.code position (m.store.var id) length
      simp only [Machine.execute, Store.readVar, h.store, hs.2]
      exact ⟨{ h with thread := hs.1, store := rfl }, trivial⟩
  | world i =>
      simp only [Machine.execute, h.thread.work]
      cases WorldCall.ofInstruction? m.thread.work i with
      | none => exact ⟨h, rfl⟩
      | some call => exact ⟨{ h with calls := congrArg (Array.push · call) h.calls }, rfl⟩

theorem unwind (h : m.SameOpen slot m') (position : Nat) :
    (m.unwind position).SameOpen slot (m'.unwind position) := by
  have hl := h.thread.level
  simp only [Machine.unwind, hl.openBlocks]
  split
  · exact .stopped (h.goto position).park
  · have hc := hl.closeBlock?
    generalize m.thread.level.closeBlock? = o, m'.thread.level.closeBlock? = o' at hc ⊢
    cases hc with
    | none => exact .stopped (h.goto position)
    | @some x x' hx =>
        obtain ⟨htarget, hlevel⟩ := hx
        simp only [htarget]
        exact .running { h with thread := h.thread.within x.1 hlevel.dropExitedLoops }

theorem settle (h : m.SameOpen slot m') (position : Nat) (result : Except Fault Signal) :
    (m.settle position result).SameOpen slot (m'.settle position result) := by
  cases result with
  | error fault => exact .stopped (h.goto position)
  | ok signal =>
      cases signal with
      | proceed => exact .running h
      | conditionFalse => exact h.unwind position
      | yield => exact .stopped h.park
      | finish => exact .stopped { h with thread := .refl _ }

theorem step (h : m.SameOpen slot m') (p : Program) :
    (m.step p slot).SameOpen slot (m'.step p slot) := by
  have hpc := h.thread.pc
  cases hi : p.instructionAt m.thread.pc with
  | error cause =>
      have hi' : p.instructionAt m'.thread.pc = .error cause := hpc ▸ hi
      cases cause with
      | unknownOpcode byte =>
          rw [step_unknown hi, step_unknown hi', hpc]
          exact .running (h.goto _)
      | _ =>
          rw [step_undecodable hi (by simp), step_undecodable hi' (by simp), hpc]
          exact .stopped h
  | ok i =>
      have hi' : p.instructionAt m'.thread.pc = .ok i := hpc ▸ hi
      obtain ⟨hm, hr⟩ := (h.goto (m.thread.pc + i.width)).execute p m.thread.pc (.ofInstruction i)
      rw [step_instruction hi, step_instruction hi', hpc, hr]
      exact hm.settle _ _

/-- The whole run is the same. -/
theorem ends (h : m.SameOpen slot m') {n : Nat} {last : Machine} {result : Except Fault Outcome}
    (hends : Ends p slot n m last result) :
    ∃ last', Ends p slot n m' last' result ∧ last.SameOpen slot last' := by
  induction hends generalizing m' with
  | stop hs =>
      have hstep := h.step p
      rw [hs] at hstep
      generalize hs' : m'.step p slot = next at hstep
      cases hstep with
      | stopped hlast => exact ⟨_, .stop hs', hlast⟩
  | step hs _ ih =>
      have hstep := h.step p
      rw [hs] at hstep
      generalize hs' : m'.step p slot = next at hstep
      cases hstep with
      | running hnext =>
          obtain ⟨last', hends', hlast⟩ := ih hnext
          exact ⟨last', .step hs' hends', hlast⟩

end Machine.SameOpen

end RoomScript
