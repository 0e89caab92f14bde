import RoomScript.Proofs.Structured.Steps

/-!
# Running structured code

The dispatch loop runs the lines of a body to what the body means. A run of the lines follows an ending of
the body when it gets to where the ending leads in its context, with a level that shows what is open there:
behind the lines, to the target of the innermost if-body, or behind the innermost loop or switch. An ending
that leads nowhere stops the thread.
-/
namespace RoomScript

/-- Where an ending leads, and what is open there. -/
def Context.exit? (ctx : Context) (behind : Nat) : Ending → Option (Nat × Context)
  | .done => some (behind, ctx)
  | .failed => ctx.failure?
  | .broke => ctx.break?
  | .trapped _ => none

/-- The result of a run that stops at an ending, on the instruction at a position. -/
def Ending.Reports (position : Nat) : Ending → Except Fault Outcome → Prop
  | .done, _ => False
  | .failed, result => result = .ok .unwound
  | .broke, result => result = .error (.noEnclosingLoop position)
  | .trapped trap, result => result = .error (trap.fault position)

/-- What is left of the room in a context. -/
def Context.room (ctx : Context) : Room where
  blocks := jumpStackDepth - ctx.blocks
  loops := loopSlots - ctx.loops

namespace Machine

variable {p : Program} {slot : Slot} {m start : Machine} {behind position : Nat}
  {ctx : Context} {s : Scene} {level : CallLevel} {r : Scene × Ending} {k : Scene → Scene × Ending}

/-- The dispatch loop goes on from one machine to another. -/
def Reaches (p : Program) (slot : Slot) (m m' : Machine) : Prop := ∃ n, Steps p slot n m m'

/-- A machine ends with a scene; the other threads are those of the machine it started from. -/
structure Leaves (m : Machine) (s : Scene) (m' : Machine) : Prop where
  store : m'.store = s.store
  work : m'.thread.work = s.work
  calls : m'.calls = s.calls
  pool : m'.pool = m.pool

/-- A run of some lines follows what they mean. -/
def Plays (p : Program) (slot : Slot) (m : Machine) (ctx : Context) (behind : Nat) (start : Machine)
    (r : Scene × Ending) : Prop :=
  match ctx.exit? behind r.2 with
  | some (target, rest) =>
    ∃ level, level.Shows rest ∧ start.Reaches p slot (m.placed target level r.1)
  | none =>
    ∃ n m' result, Ends p slot n start m' result ∧ r.2.Reports m'.thread.pc result ∧
      m.Leaves r.1 m'

namespace Plays

theorem done (hs : level.Shows ctx) :
    Plays p slot m ctx behind (m.placed behind level s) (s, .done) :=
  ⟨level, hs, 0, .refl _⟩

/-- An iteration in front of a run. -/
theorem step {next : Machine} (hstep : start.step p slot = .running next)
    (h : Plays p slot m ctx behind next r) : Plays p slot m ctx behind start r := by
  unfold Plays at h ⊢
  split at h
  · obtain ⟨level, hs, n, hsteps⟩ := h
    exact ⟨level, hs, n + 1, .step hstep hsteps⟩
  · obtain ⟨n, m', result, hends, hr⟩ := h
    exact ⟨n + 1, m', result, .step hstep hends, hr⟩

theorem reaches {next : Machine} (hreach : start.Reaches p slot next)
    (h : Plays p slot m ctx behind next r) : Plays p slot m ctx behind start r := by
  obtain ⟨n, hsteps⟩ := hreach
  induction hsteps with
  | refl => exact h
  | step hstep _ ih => exact (ih h).step hstep

/-- An iteration that gets to where an ending leads. -/
theorem leads {target : Nat} {rest : Context} {e : Ending}
    (he : ctx.exit? behind e = some (target, rest)) (hs : level.Shows rest)
    (hstep : start.step p slot = .running (m.placed target level s)) :
    Plays p slot m ctx behind start (s, e) := by
  simp only [Plays, he]
  exact ⟨level, hs, 1, .single hstep⟩

/-- An iteration that stops at an ending. -/
theorem stops {e : Ending} {m' : Machine} {result : Except Fault Outcome}
    (he : ctx.exit? behind e = none) (hstep : start.step p slot = .stopped m' result)
    (hr : e.Reports m'.thread.pc result) (hl : m.Leaves s m') : Plays p slot m ctx behind start (s, e) := by
  simp only [Plays, he]
  exact ⟨1, m', result, .stop hstep, hr, hl⟩

/-- A trap stops the run. -/
theorem trap {trap : Trap}
    (hstep : start.step p slot =
      .stopped (m.placed position level s) (.error (trap.fault position))) :
    Plays p slot m ctx behind start (s, .trapped trap) :=
  stops rfl hstep rfl ⟨rfl, rfl, rfl, rfl⟩

variable {middle : Nat}

/-- Runs one behind the other. -/
theorem andThen (h : Plays p slot m ctx middle start r)
    (hk : ∀ level s, level.Shows ctx → Plays p slot m ctx behind (m.placed middle level s) (k s)) :
    Plays p slot m ctx behind start (Ending.andThen r k) := by
  obtain ⟨s, e⟩ := r
  cases e with
  | done =>
      obtain ⟨level, hs, hreach⟩ := h
      exact (hk level s hs).reaches hreach
  | failed => exact h
  | broke => exact h
  | trapped trap => exact h

/-- An if-body catches a failed condition. -/
theorem orElse {target : Nat} (h : Plays p slot m (.block target :: ctx) middle start r)
    (hdone : ∀ level s, level.Shows (.block target :: ctx) →
      Plays p slot m ctx behind (m.placed middle level s) (s, .done))
    (hk : ∀ level s, level.Shows ctx → Plays p slot m ctx behind (m.placed target level s) (k s)) :
    Plays p slot m ctx behind start (Ending.orElse r k) := by
  obtain ⟨s, e⟩ := r
  cases e with
  | done =>
      obtain ⟨level, hs, hreach⟩ := h
      exact (hdone level s hs).reaches hreach
  | failed =>
      obtain ⟨level, hs, hreach⟩ := h
      exact (hk level s hs).reaches hreach
  | broke => exact h
  | trapped trap => exact h

/-- A loop or switch catches a break; what follows when its statements come to their end may still
break. -/
theorem leaving {target first : Nat} {counter : UInt16}
    (h : Plays p slot m (.loop counter first target :: ctx) middle start r)
    (hk : ∀ level s, level.Shows (.loop counter first target :: ctx) →
      Plays p slot m ctx target (m.placed middle level s) (Ending.leaving (k s))) :
    Plays p slot m ctx target start (Ending.leaving (Ending.andThen r k)) := by
  obtain ⟨s, e⟩ := r
  cases e with
  | done =>
      obtain ⟨level, hs, hreach⟩ := h
      exact (hk level s hs).reaches hreach
  | failed => exact h
  | broke => exact h
  | trapped trap => exact h

variable {length : Nat} {f : Room → Scene × Ending}

/-- An if-body runs when there is room for it. -/
theorem block (hi : p.instructionAt position = .ok (Line.ifelCk.spanning length).instruction)
    (hlength : length < UInt16.size) (hs : level.Shows ctx)
    (hf : ∀ level, level.Shows (.block (position + 4 + length) :: ctx) →
      Plays p slot m ctx behind (m.placed (position + 4) level s)
        (f (Context.room (.block (position + 4 + length) :: ctx)))) :
    Plays p slot m ctx behind (m.placed position level s) (ctx.room.block s f) := by
  unfold Room.block
  split
  · rename_i hroom
    exact .trap (step_ifelCk_full hi hs (Nat.le_of_sub_eq_zero hroom))
  · rename_i hroom
    obtain ⟨level', hs', hstep⟩ :=
      step_ifelCk hi hlength hs (Nat.lt_of_sub_ne_zero hroom)
    exact (hf level' hs').step hstep

variable {count : UInt16}

/-- A loop that runs at all runs when there is room for it. -/
theorem loop
    (hi : p.instructionAt position = .ok ((Line.forLoop count).spanning length).instruction)
    (hlength : length < UInt16.size) (hcount : count ≠ 0) (hs : level.Shows ctx)
    (hf : ∀ level, level.Shows (.loop count (position + 6) (position + 6 + length) :: ctx) →
      Plays p slot m ctx behind (m.placed (position + 6) level s)
        (f (Context.room (.loop count (position + 6) (position + 6 + length) :: ctx)))) :
    Plays p slot m ctx behind (m.placed position level s) (ctx.room.loop s f) := by
  unfold Room.loop
  split
  · rename_i hroom
    exact .trap (step_forLoop_full hi hcount hs (Nat.le_of_sub_eq_zero hroom))
  · rename_i hroom
    obtain ⟨level', hs', hstep⟩ :=
      step_forLoop hi hlength hcount hs (Nat.lt_of_sub_ne_zero hroom)
    exact (hf level' hs').step hstep

/-- A loop runs its body as often as its counter tells. -/
theorem iterate {first target : Nat} {body : Scene → Scene × Ending}
    (hi : p.instructionAt target = .ok Line.next.instruction)
    (hbody : ∀ counter level s, level.Shows (.loop counter first (target + 2) :: ctx) →
      Plays p slot m (.loop counter first (target + 2) :: ctx) target (m.placed first level s)
        (body s)) :
    ∀ n counter level s, counter.toNat = n + 1 →
      level.Shows (.loop counter first (target + 2) :: ctx) →
      Plays p slot m ctx (target + 2) (m.placed first level s)
        (Ending.leaving (Ending.iterate body (n + 1) s)) := by
  intro n
  induction n with
  | zero =>
      intro counter level s hn hs
      apply leaving (hbody counter level s hs)
      intro level s hs
      have hlast : ¬1 < counter := by
        rw [UInt16.lt_iff_toNat_lt, hn]
        exact Nat.lt_irrefl 1
      obtain ⟨level', hs', hstep⟩ := step_next_last hi hs hlast
      exact (done hs').step hstep
  | succ n ih =>
      intro counter level s hn hs
      apply leaving (hbody counter level s hs)
      intro level s hs
      have hagain : 1 < counter := by
        rw [UInt16.lt_iff_toNat_lt, hn]
        exact Nat.succ_lt_succ (Nat.succ_pos n)
      obtain ⟨level', hs', hstep⟩ := step_next_again hi hs hagain
      refine (ih (counter - 1) level' s ?_ hs').step hstep
      rw [UInt16.toNat_sub_of_le _ _ (UInt16.le_of_lt hagain), hn]
      rfl

end Plays

end Machine

@[simp] theorem Ending.andThen_done (r : Scene × Ending) : andThen r (fun s => (s, .done)) = r := by
  obtain ⟨s, e⟩ := r
  cases e <;> rfl

/-- Cases without a landing do nothing. -/
theorem Cases.enter_of_landing?_none {value : Int16} {room : Room} {s : Scene} :
    ∀ {c : Cases Statement} {position : Nat}, c.landing? value position = Option.none →
      c.enter value room s = (s, .done)
  | .none, _, _ => rfl
  | .default _, _, h => by cases h
  | .case v body rest, position, h => by
      unfold landing? at h
      split at h
      · cases h
      · rename_i hv
        simp only [enter, hv, if_false]
        exact enter_of_landing?_none h

section

variable {p : Program} {slot : Slot} {m : Machine} {position : Nat} {ctx : Context}
  {level : CallLevel} {s : Scene}

open Machine

theorem Statement.plays (a : Statement) (hi : p.instructionAt position = .ok a.line.instruction)
    (hs : level.Shows ctx) :
    Plays p slot m ctx (position + a.line.opcode.width) (m.placed position level s) (a.eval s) := by
  have hstep : (m.placed position level s).step p slot = _ := a.step hi
  have hbroke := a.eval_ne_broke s
  generalize a.eval s = r at hstep hbroke
  obtain ⟨s', e⟩ := r
  cases e with
  | done => exact (Plays.done hs).step hstep
  | failed =>
      cases hf : ctx.failure? with
      | some out =>
          obtain ⟨level', hs', hunwind⟩ := unwind_placed hs hf
          exact .leads hf hs' (hstep.trans hunwind)
      | none =>
          exact .stops hf (hstep.trans (unwind_placed_outside hs hf)) rfl ⟨rfl, rfl, rfl, rfl⟩
  | broke => exact absurd rfl hbroke
  | trapped trap => exact .trap hstep

/-- The lines of a body that stand at a position play what the body means, wherever they stand and
whatever is open around them. -/
def Body.PlaysAt (p : Program) (slot : Slot) (m : Machine) (position : Nat) (b : Body Statement) :
    Prop :=
  ∀ {ctx : Context} {level : CallLevel} {s : Scene}, level.Shows ctx →
    Plays p slot m ctx (position + Line.extent b.lines) (m.placed position level s)
      (b.eval ctx.room s)

namespace Body

variable {body other rest : Body Statement} {cases : Cases Statement}

theorem playsAt_leaf {a : Statement} (hl : p.Lists position (leaf a rest).lines)
    (hrest : rest.PlaysAt p slot m (position + a.line.opcode.width)) :
    (leaf a rest).PlaysAt p slot m position := by
  intro ctx level s hs
  have hextent : position + Line.extent (leaf a rest).lines =
      position + a.line.opcode.width + Line.extent rest.lines := by
    simp [lines, Leaf.lines, Nat.add_assoc]
  rw [hextent]
  exact (a.plays hl.1 hs).andThen fun level s hs => hrest hs

theorem playsAt_ifThen (hf : (ifThen body rest).Fits)
    (hl : p.Lists position (ifThen body rest).lines)
    (hbody : body.PlaysAt p slot m (position + 4))
    (hrest : rest.PlaysAt p slot m (position + 4 + Line.extent body.lines + 2)) :
    (ifThen body rest).PlaysAt p slot m position := by
  intro ctx level s hs
  obtain ⟨hi, _, hend, _⟩ := lists_ifThen hl
  rw [extent_ifThen]
  simp only [← Nat.add_assoc]
  refine .andThen (.block hi hf.1 hs fun level hs => ?_) fun level s hs => hrest hs
  refine .orElse (hbody hs) (fun level s hs => ?_) fun level s hs => .done hs
  obtain ⟨level', hs', hstep⟩ := step_endif hend hs
  exact (Plays.done hs').step hstep

theorem playsAt_ifElse (hf : (ifElse body other rest).Fits)
    (hl : p.Lists position (ifElse body other rest).lines)
    (hbody : body.PlaysAt p slot m (position + 4))
    (hother : other.PlaysAt p slot m (position + 4 + Line.extent body.lines + 4))
    (hrest : rest.PlaysAt p slot m
      (position + 4 + Line.extent body.lines + 4 + Line.extent other.lines)) :
    (ifElse body other rest).PlaysAt p slot m position := by
  intro ctx level s hs
  obtain ⟨hi, _, helse, _, _⟩ := lists_ifElse hl
  rw [extent_ifElse]
  simp only [← Nat.add_assoc]
  refine .andThen (.block hi hf.1 hs fun level hs => ?_) fun level s hs => hrest hs
  refine .orElse (hbody hs) (fun level s hs => ?_) fun level s hs => hother hs
  obtain ⟨level', hs', hstep⟩ := step_elseCk helse hf.2.1 hs
  exact (Plays.done hs').step hstep

theorem playsAt_loop {count : UInt16} (hf : (loop count body rest).Fits)
    (hl : p.Lists position (loop count body rest).lines)
    (hbody : body.PlaysAt p slot m (position + 6))
    (hrest : rest.PlaysAt p slot m (position + 6 + Line.extent body.lines + 2)) :
    (loop count body rest).PlaysAt p slot m position := by
  intro ctx level s hs
  obtain ⟨hi, _, hend, _⟩ := lists_loop hl
  rw [extent_loop]
  simp only [← Nat.add_assoc]
  refine .andThen ?_ fun level s hs => hrest hs
  split
  · rename_i hcount
    subst hcount
    exact (Plays.done hs).step (step_forLoop_zero hi hf.1)
  · rename_i hcount
    refine .loop hi hf.1 hcount hs fun level hs => ?_
    obtain ⟨n, hn⟩ := Nat.exists_eq_succ_of_ne_zero
      (fun h => hcount (UInt16.toNat_inj.mp h) : count.toNat ≠ 0)
    rw [hn]
    exact Plays.iterate hend (fun _ _ _ hs => hbody hs) n count level s hn hs

theorem playsAt_breakOut (hl : p.Lists position (breakOut rest).lines) :
    (breakOut rest).PlaysAt p slot m position := by
  intro ctx level s hs
  cases hb : ctx.break? with
  | some out =>
      obtain ⟨level', hs', hstep⟩ := step_breakOut hl.1 hs hb
      exact .leads hb hs' hstep
  | none =>
      exact .stops hb (step_breakOut_outside hl.1 hs hb) rfl ⟨rfl, rfl, rfl, rfl⟩

/-- The body of a switch plays what its cases mean from where the switch lands. -/
theorem playsAt_switch {var : UInt8} (hf : (switch var cases rest).Fits)
    (hl : p.Lists position (switch var cases rest).lines)
    (henter : ∀ {value : Int16} {landing : Nat} {ctx : Context} {level : CallLevel} {s : Scene},
      cases.landing? value (position + 4) = some landing → level.Shows ctx →
      Plays p slot m ctx (position + 4 + Line.extent cases.lines) (m.placed landing level s)
        (cases.enter value ctx.room s))
    (hrest : rest.PlaysAt p slot m (position + 4 + Line.extent cases.lines + 2)) :
    (switch var cases rest).PlaysAt p slot m position := by
  intro ctx level s hs
  obtain ⟨hi, hlists, _⟩ := lists_switch hl
  have hend := (Program.lists_append.mp hlists).2.1
  have hfind := Cases.find_eq (s.store.var var) hf.2.1 hlists
  rw [extent_switch]
  simp only [← Nat.add_assoc]
  refine .andThen ?_ fun level s hs => hrest hs
  simp only [Room.loop]
  split
  · rename_i hroom
    exact .trap (step_switch_full hi hs (Nat.le_of_sub_eq_zero hroom))
  · rename_i hroom
    obtain ⟨level', hs', hopened⟩ :=
      step_switch_opened (m := m) (s := s) slot hi hf.1 hs (Nat.lt_of_sub_ne_zero hroom)
    cases hland : cases.landing? (s.store.var var) (position + 4) with
    | some landing =>
        rw [hland] at hfind
        refine .step ((hopened landing).1 hfind) ?_
        rw [← Ending.andThen_done (cases.enter _ _ _)]
        refine .leaving (henter hland hs') fun level s hs => ?_
        obtain ⟨level'', hs'', hstep⟩ := step_eswitch hend hs
        exact (Plays.done hs'').step hstep
    | none =>
        rw [hland] at hfind
        rw [Cases.enter_of_landing?_none hland]
        exact (Plays.done hs'.popLoop).step ((hopened _).2 hfind)

end Body

mutual

/-- The dispatch loop runs the lines of a body to what the body means. -/
theorem Body.playsAt : ∀ (b : Body Statement) {position : Nat}, b.Fits →
    p.Lists position b.lines → b.PlaysAt p slot m position
  | .done, _, _, _ => fun hs => .done hs
  | .leaf _ rest, _, hf, hl => Body.playsAt_leaf hl (rest.playsAt hf.2 hl.2)
  | .ifThen body rest, _, hf, hl =>
    have h := Body.lists_ifThen hl
    Body.playsAt_ifThen hf hl (body.playsAt hf.2.1 h.2.1) (rest.playsAt hf.2.2 h.2.2.2)
  | .ifElse body other rest, _, hf, hl =>
    have h := Body.lists_ifElse hl
    Body.playsAt_ifElse hf hl (body.playsAt hf.2.2.1 h.2.1) (other.playsAt hf.2.2.2.1 h.2.2.2.1)
      (rest.playsAt hf.2.2.2.2 h.2.2.2.2)
  | .loop _ body rest, _, hf, hl =>
    have h := Body.lists_loop hl
    Body.playsAt_loop hf hl (body.playsAt hf.2.1 h.2.1) (rest.playsAt hf.2.2 h.2.2.2)
  | .switch _ cases rest, _, hf, hl =>
    have h := Body.lists_switch hl
    Body.playsAt_switch hf hl (cases.plays_enter hf.2.1 (Program.lists_append.mp h.2.1).1)
      (rest.playsAt hf.2.2 h.2.2)
  | .breakOut _, _, _, hl => Body.playsAt_breakOut hl

/-- A thread that falls through a case runs all bodies from there on. -/
theorem Cases.plays_fall : ∀ (c : Cases Statement) {position : Nat}, c.Fits →
    p.Lists position c.lines → ∀ {ctx : Context} {level : CallLevel} {s : Scene}, level.Shows ctx →
      Plays p slot m ctx (position + Line.extent c.lines) (m.placed position level s)
        (c.fall ctx.room s)
  | .none, _, _, _, _, _, _, hs => .done hs
  | .default body, _, hf, hl, _, _, _, hs => by
      rw [Cases.extent_default, ← Nat.add_assoc]
      exact (body.playsAt hf hl.2 hs).step (Statement.step_default hl.1)
  | .case _ body rest, _, hf, hl, _, _, _, hs => by
      obtain ⟨hi, hbody, hrest⟩ := Cases.lists_case hl
      rw [Cases.extent_case]
      simp only [← Nat.add_assoc]
      refine .step (Statement.step_case hi) (.andThen (body.playsAt hf.2.1 hbody hs) ?_)
      exact fun _ _ hs => rest.plays_fall hf.2.2 hrest hs

/-- From where a switch lands, a thread runs what the cases do for its value. -/
theorem Cases.plays_enter : ∀ (c : Cases Statement) {position : Nat}, c.Fits →
    p.Lists position c.lines → ∀ {value : Int16} {landing : Nat} {ctx : Context}
      {level : CallLevel} {s : Scene}, c.landing? value position = some landing → level.Shows ctx →
      Plays p slot m ctx (position + Line.extent c.lines) (m.placed landing level s)
        (c.enter value ctx.room s)
  | .none, _, _, _, _, _, _, _, _, hland, _ => by cases hland
  | .default body, _, hf, hl, _, _, _, _, _, hland, hs => by
      cases hland
      rw [Cases.extent_default, ← Nat.add_assoc]
      exact body.playsAt hf hl.2 hs
  | .case v body rest, _, hf, hl, value, _, _, _, _, hland, hs => by
      obtain ⟨_, hbody, hrest⟩ := Cases.lists_case hl
      rw [Cases.extent_case]
      simp only [← Nat.add_assoc]
      by_cases hv : v = value
      · rw [Cases.landing?, if_pos hv] at hland
        cases hland
        rw [Cases.enter, if_pos hv]
        refine .andThen (body.playsAt hf.2.1 hbody hs) ?_
        exact fun _ _ hs => rest.plays_fall hf.2.2 hrest hs
      · rw [Cases.landing?, if_neg hv] at hland
        rw [Cases.enter, if_neg hv]
        exact rest.plays_enter hf.2.2 hrest hland hs

end

end

end RoomScript
