import RoomScript.Proofs.Structured.Code
import RoomScript.Proofs.Structured.Context
import RoomScript.Proofs.Structured.Eval

/-!
# Steps of structured code

What one iteration of the dispatch loop does at each line of structured code, for a thread whose call
level shows what is open around the line. The rest of the machine, the other threads and the other call
levels among it, stays as it is.
-/
namespace RoomScript

namespace Machine

variable {p : Program} {slot : Slot} {m : Machine} {position target start length : Nat}
  {level : CallLevel} {s : Scene} {ctx rest : Context} {counter : UInt16} {i : Instruction}

/-- The machine with its thread at a position, with a call level in use and a scene to act on. -/
def placed (m : Machine) (position : Nat) (level : CallLevel) (s : Scene) : Machine :=
  { m with
    thread := { m.thread.within position level with work := s.work }
    store := s.store
    calls := s.calls }

@[simp] theorem level_placed : (m.placed position level s).thread.level = level :=
  m.thread.level_within position level

theorem setLevel_placed {level' : CallLevel} :
    (m.placed position level s).thread.setLevel level' = (m.placed position level' s).thread := by
  simp only [placed, Thread.within, Thread.setLevel, Vector.set_set]

theorem within_placed {level' : CallLevel} {store : Store} :
    { m.placed position level s with
      thread := (m.placed position level s).thread.within target level'
      store } = m.placed target level' { s with store } := by
  simp only [placed, Thread.within, Thread.setLevel, Vector.set_set]

/-- A machine is placed where it is. -/
theorem placed_self (m : Machine) :
    m.placed m.thread.pc m.thread.level
      { store := m.store, work := m.thread.work, calls := m.calls } = m := by
  have h := m.thread.within_self
  simp only [placed, h]

section Flow

variable {c : FlowCommand} {level' : CallLevel} {word count : UInt16}

/-- A flow command that places its thread anew. -/
theorem step_flow_placed (hi : p.instructionAt position = .ok i)
    (hc : Command.ofInstruction i = .flow c)
    (hr : c.run p position (m.placed (position + i.width) level s).thread =
      .ok ((m.placed target level' s).thread, .proceed)) :
    (m.placed position level s).step p slot = .running (m.placed target level' s) := by
  have hs : (m.placed position level s).step p slot = _ := step_flow hi hc
  have hr' : c.run p (m.placed position level s).thread.pc
      { (m.placed position level s).thread with
        pc := (m.placed position level s).thread.pc + i.width } =
      .ok ((m.placed target level' s).thread, .proceed) := hr
  rw [hr'] at hs
  exact hs

theorem step_flow_error {fault : Fault} (hi : p.instructionAt position = .ok i)
    (hc : Command.ofInstruction i = .flow c)
    (hr : c.run p position (m.placed (position + i.width) level s).thread = .error fault) :
    (m.placed position level s).step p slot =
      .stopped (m.placed position level s) (.error fault) := by
  have hs : (m.placed position level s).step p slot = _ := step_flow hi hc
  have hr' : c.run p (m.placed position level s).thread.pc
      { (m.placed position level s).thread with
        pc := (m.placed position level s).thread.pc + i.width } = .error fault := hr
  rw [hr'] at hs
  exact hs

theorem openIf_placed (h : level.openBlock? (start + word.toNat) = some level') :
    (m.placed start level s).thread.openIf position word =
      .ok ((m.placed start level' s).thread, .proceed) := by
  have hlevel : (m.placed start level s).thread.level = level := level_placed
  rw [← hlevel] at h
  have hpc : (m.placed start level s).thread.pc = start := rfl
  simp only [Thread.openIf, hpc, h, setLevel_placed]

theorem closeIf_placed (h : level.closeBlock? = some (target, level')) :
    (m.placed start level s).thread.closeIf position word =
      .ok ((m.placed (start + word.toNat) level' s).thread, .proceed) := by
  have hlevel : (m.placed start level s).thread.level = level := level_placed
  rw [← hlevel] at h
  simp only [Thread.closeIf, h, setLevel_placed]
  rfl

theorem openLoop_placed (h : level.pushLoop? (level.slot counter start target) = some level') :
    (m.placed start level s).thread.openLoop position counter target =
      .ok ((m.placed start level' s).thread, .proceed) := by
  have hlevel : (m.placed start level s).thread.level = level := level_placed
  rw [← hlevel] at h
  have hpc : (m.placed start level s).thread.pc = start := rfl
  unfold CallLevel.slot at h
  simp only [Thread.openLoop, hpc, h, setLevel_placed]

end Flow

section Blocks

/-- An if-body opens. -/
theorem step_ifelCk (hi : p.instructionAt position = .ok (Line.ifelCk.spanning length).instruction)
    (hlength : length < UInt16.size) (hs : level.Shows ctx) (hroom : ctx.blocks < jumpStackDepth) :
    ∃ level', level'.Shows (.block (position + 4 + length) :: ctx) ∧
      (m.placed position level s).step p slot = .running (m.placed (position + 4) level' s) := by
  obtain ⟨level', ho, hs'⟩ := hs.openBlock? hroom (position + 4 + length)
  rw [← toNat_length hlength] at ho
  exact ⟨level', hs', step_flow_placed hi Command.ofInstruction_ifelCk (openIf_placed ho)⟩

/-- An else-body is passed over when its if-body has come to its end. -/
theorem step_elseCk (hi : p.instructionAt position = .ok (Line.elseCk.spanning length).instruction)
    (hlength : length < UInt16.size) (hs : level.Shows (.block target :: ctx)) :
    ∃ level', level'.Shows ctx ∧ (m.placed position level s).step p slot =
      .running (m.placed (position + 4 + length) level' s) := by
  obtain ⟨level', hb, hs'⟩ := hs.closeBlock?
  refine ⟨level', hs', step_flow_placed hi Command.ofInstruction_elseCk ?_⟩
  have hrun : (m.placed (position + 4) level s).thread.closeIf position (UInt16.ofNat length) =
      .ok ((m.placed (position + 4 + (UInt16.ofNat length).toNat) level' s).thread, .proceed) :=
    closeIf_placed hb
  rw [toNat_length hlength] at hrun
  exact hrun

theorem step_endif (hi : p.instructionAt position = .ok Line.endif.instruction)
    (hs : level.Shows (.block target :: ctx)) :
    ∃ level', level'.Shows ctx ∧
      (m.placed position level s).step p slot = .running (m.placed (position + 2) level' s) := by
  obtain ⟨level', hb, hs'⟩ := hs.closeBlock?
  exact ⟨level', hs', step_flow_placed hi Command.ofInstruction_endif (closeIf_placed hb)⟩

/-- There is no room for an if-body. -/
theorem step_ifelCk_full
    (hi : p.instructionAt position = .ok (Line.ifelCk.spanning length).instruction)
    (hs : level.Shows ctx) (hfull : jumpStackDepth ≤ ctx.blocks) :
    (m.placed position level s).step p slot =
      .stopped (m.placed position level s) (.error (.jumpStackOverflow position)) := by
  apply step_flow_error hi Command.ofInstruction_ifelCk
  simp only [FlowCommand.run, Thread.openIf, level_placed, hs.openBlock?_eq_none hfull]

end Blocks

section Loops

variable {count : UInt16}

/-- A loop that runs no times is passed over. -/
theorem step_forLoop_zero
    (hi : p.instructionAt position = .ok ((Line.forLoop 0).spanning length).instruction)
    (hlength : length < UInt16.size) :
    (m.placed position level s).step p slot = .running (m.placed (position + 6 + length) level s) := by
  apply step_flow_placed hi (Command.ofInstruction_forLoop 0)
  simp only [FlowCommand.run, if_true, toNat_length hlength]
  rfl

theorem step_forLoop
    (hi : p.instructionAt position = .ok ((Line.forLoop count).spanning length).instruction)
    (hlength : length < UInt16.size) (hcount : count ≠ 0) (hs : level.Shows ctx)
    (hroom : ctx.loops < loopSlots) :
    ∃ level', level'.Shows (.loop count (position + 6) (position + 6 + length) :: ctx) ∧
      (m.placed position level s).step p slot = .running (m.placed (position + 6) level' s) := by
  obtain ⟨level', hp, hs'⟩ := hs.pushLoop? hroom count (position + 6) (position + 6 + length)
  refine ⟨level', hs', step_flow_placed hi (Command.ofInstruction_forLoop count) ?_⟩
  rw [← toNat_length hlength] at hp
  simp only [FlowCommand.run, hcount, if_false]
  exact openLoop_placed hp

/-- There is no room for a loop. -/
theorem step_forLoop_full
    (hi : p.instructionAt position = .ok ((Line.forLoop count).spanning length).instruction)
    (hcount : count ≠ 0) (hs : level.Shows ctx) (hfull : loopSlots ≤ ctx.loops) :
    (m.placed position level s).step p slot =
      .stopped (m.placed position level s) (.error (.loopOverflow position)) := by
  apply step_flow_error hi (Command.ofInstruction_forLoop count)
  simp only [FlowCommand.run, hcount, if_false, Thread.openLoop, level_placed,
    hs.pushLoop?_eq_none hfull]

/-- A loop runs again. -/
theorem step_next_again (hi : p.instructionAt position = .ok Line.next.instruction)
    (hs : level.Shows (.loop counter start target :: ctx)) (hagain : 1 < counter) :
    ∃ level', level'.Shows (.loop (counter - 1) start target :: ctx) ∧
      (m.placed position level s).step p slot = .running (m.placed start level' s) := by
  refine ⟨_, hs.setLoop (counter - 1), step_flow_placed hi Command.ofInstruction_next ?_⟩
  simp only [FlowCommand.run, level_placed, hs.currentLoop?, hagain, if_true, setLevel_placed]
  rfl

/-- A loop has run for the last time. -/
theorem step_next_last (hi : p.instructionAt position = .ok Line.next.instruction)
    (hs : level.Shows (.loop counter start target :: ctx)) (hlast : ¬1 < counter) :
    ∃ level', level'.Shows ctx ∧
      (m.placed position level s).step p slot = .running (m.placed (position + 2) level' s) := by
  refine ⟨_, (hs.setLoop 0).popLoop, step_flow_placed hi Command.ofInstruction_next ?_⟩
  simp only [FlowCommand.run, level_placed, hs.currentLoop?, hlast, if_false, setLevel_placed]
  rfl

/-- A switch has come to its end. -/
theorem step_eswitch (hi : p.instructionAt position = .ok Line.eswitch.instruction)
    (hs : level.Shows (.loop counter start target :: ctx)) :
    ∃ level', level'.Shows ctx ∧
      (m.placed position level s).step p slot = .running (m.placed (position + 2) level' s) := by
  refine ⟨_, hs.popLoop, step_flow_placed hi Command.ofInstruction_eswitch ?_⟩
  simp only [FlowCommand.run, level_placed, hs.currentLoop?, setLevel_placed]
  rfl

/-- A break leaves the innermost loop or switch. -/
theorem step_breakOut (hi : p.instructionAt position = .ok Line.breakOut.instruction)
    (hs : level.Shows ctx) (hb : ctx.break? = some (target, rest)) :
    ∃ level', level'.Shows rest ∧
      (m.placed position level s).step p slot = .running (m.placed target level' s) := by
  obtain ⟨loop, hl, rfl, hs'⟩ := hs.breakOut hb
  refine ⟨_, hs', step_flow_placed hi Command.ofInstruction_breakOut ?_⟩
  simp only [FlowCommand.run, level_placed, hl, setLevel_placed]
  rfl

theorem step_breakOut_outside (hi : p.instructionAt position = .ok Line.breakOut.instruction)
    (hs : level.Shows ctx) (hb : ctx.break? = none) :
    (m.placed position level s).step p slot =
      .stopped (m.placed position level s) (.error (.noEnclosingLoop position)) := by
  apply step_flow_error hi Command.ofInstruction_breakOut
  simp only [FlowCommand.run, level_placed, hs.currentLoop?_eq_none hb]

end Loops

section Switches

variable {var : UInt8} {word : UInt16} {level' : CallLevel}

/-- A switch reads its variable and opens its slot before it looks for a landing. -/
theorem step_switch_opened (slot : Slot)
    (hi : p.instructionAt position = .ok ((Line.switch var).spanning length).instruction)
    (hlength : length < UInt16.size) (hs : level.Shows ctx) (hroom : ctx.loops < loopSlots) :
    ∃ level', level'.Shows (.loop 0 (position + 4) (position + 4 + length) :: ctx) ∧
      ∀ target,
        (Landing.find p.code (s.store.var var) (position + 4) = .ok (.body target) →
          (m.placed position level s).step p slot =
            .running (m.placed target level' { s with store := s.store.touchVar var })) ∧
        (Landing.find p.code (s.store.var var) (position + 4) = .ok (.past target) →
          (m.placed position level s).step p slot =
            .running (m.placed target level'.popLoop { s with store := s.store.touchVar var })) := by
  obtain ⟨level', hp, hs'⟩ := hs.pushLoop? hroom 0 (position + 4) (position + 4 + length)
  refine ⟨level', hs', fun target => ?_⟩
  have hc : Command.ofInstruction ((Line.switch var).spanning length).instruction = _ :=
    Command.ofInstruction_switch var
  have hp' : (m.placed position level s).thread.level.pushLoop?
      ((m.placed position level s).thread.level.slot 0 (position + 4)
        (position + 4 + (UInt16.ofNat length).toNat)) = some level' := by
    rw [level_placed, toNat_length hlength]
    exact hp
  constructor
  · intro hf
    exact (step_switch_of_body hi hc hp' hf).trans (congrArg Progress.running within_placed)
  · intro hf
    exact (step_switch_of_past hi hc hp' hf).trans (congrArg Progress.running within_placed)

/-- There is no room for a switch. -/
theorem step_switch_full
    (hi : p.instructionAt position = .ok ((Line.switch var).spanning length).instruction)
    (hs : level.Shows ctx) (hfull : loopSlots ≤ ctx.loops) :
    (m.placed position level s).step p slot =
      .stopped (m.placed position level { s with store := s.store.touchVar var })
        (.error (.loopOverflow position)) := by
  have hp : (m.placed position level s).thread.level.pushLoop?
      ((m.placed position level s).thread.level.slot 0 (position + 4)
        (position + 4 + (UInt16.ofNat length).toNat)) = none := by
    rw [level_placed]
    exact hs.pushLoop?_eq_none hfull _
  exact step_switch_of_full hi (Command.ofInstruction_switch var) hp

end Switches

section Conditions

/-- A failed condition goes on where the innermost if-body catches it. -/
theorem unwind_placed (hs : level.Shows ctx) (hf : ctx.failure? = some (target, rest)) :
    ∃ level', level'.Shows rest ∧
      (m.placed start level s).unwind position = .running (m.placed target level' s) := by
  obtain ⟨hopen, level', hb, hs'⟩ := hs.unwind hf
  refine ⟨_, hs', ?_⟩
  simp only [unwind, level_placed, hopen, if_false, hb, setLevel_placed]
  rfl

/-- A failed condition outside all if-bodies parks the thread. -/
theorem unwind_placed_outside (hs : level.Shows ctx) (hf : ctx.failure? = none) :
    (m.placed start level s).unwind position =
      .stopped (m.placed position level s).park (.ok .unwound) := by
  simp only [unwind, level_placed, hs.openBlocks_eq_zero hf, if_true]
  rfl

end Conditions

end Machine

/-- The fault of a trap. -/
def Trap.fault (position : Nat) : Trap → Fault
  | .divisionByZero => .divisionByZero position
  | .jumpStackOverflow => .jumpStackOverflow position
  | .loopOverflow => .loopOverflow position

/-- What the dispatch loop is told of the ending of a single statement. -/
def Ending.signal (position : Nat) : Ending → Except Fault Signal
  | .done => .ok .proceed
  | .failed => .ok .conditionFalse
  | .broke => .error (.noEnclosingLoop position)
  | .trapped trap => .error (trap.fault position)

theorem Ending.signal_ofCondition (position : Nat) (holds : Bool) :
    (ofCondition holds).signal position = .ok (.ofCondition holds) := by
  cases holds <;> rfl

theorem Scene.calculate_eq (s : Scene) (position : Nat) (op : CalcOp) (var : UInt8) (rhs : Int16) :
    (s.store.calculate position op var rhs) =
      ((s.calculate op var rhs).1.store, (s.calculate op var rhs).2.signal position) ∧
      (s.calculate op var rhs).1 = { s with store := (s.calculate op var rhs).1.store } := by
  simp only [Store.calculate, calculate, Store.readVar]
  cases op.eval? (s.store.var var) rhs with
  | none => exact ⟨rfl, rfl⟩
  | some value => exact ⟨rfl, rfl⟩

namespace Statement

variable {p : Program} {slot : Slot} {m : Machine} {position : Nat} {level : CallLevel} {s : Scene}
  {i : Instruction}

/-- A statement on the store, by what its command does there. -/
theorem step_data {c : DataCommand} {r : Scene × Ending} (hi : p.instructionAt position = .ok i)
    (hc : Command.ofInstruction i = .data c)
    (hr : c.run position s.store = (r.1.store, r.2.signal position))
    (hs : r.1 = { s with store := r.1.store }) :
    (m.placed position level s).step p slot =
      (m.placed (position + i.width) level r.1).settle position (r.2.signal position) := by
  have hstep : (m.placed position level s).step p slot = _ := Machine.step_data hi hc
  have hr' : c.run (m.placed position level s).thread.pc (m.placed position level s).store =
    (r.1.store, r.2.signal position) := hr
  rw [hr'] at hstep
  rw [hstep, hs]
  rfl

/-- A statement on the world, by the call it makes. -/
theorem step_world {i' : Instruction} (hi : p.instructionAt position = .ok i)
    (hc : Command.ofInstruction i = .world i') :
    (m.placed position level s).step p slot = .running (m.placed (position + i.width) level
      { s with calls := (WorldCall.ofInstruction? s.work i').elim s.calls s.calls.push }) :=
  Machine.step_world (m := m.placed position level s) hi hc

theorem command_save (var : UInt8) (value : Int16) :
    Command.ofInstruction (Line.save var value).instruction = .data (.save var value) :=
  congrArg (fun value => Command.data (.save var value)) (toInt16_wordOf value)

theorem command_calculate (op : CalcOp) (var : UInt8) (value : Int16) :
    Command.ofInstruction (Line.calculate op var value).instruction =
      .data (.calculate (some op) var value) :=
  congr (congrArg (fun op value => Command.data (.calculate op var value)) op.ofCode?_code)
    (toInt16_wordOf value)

theorem command_calculate2 (op : CalcOp) (var source : UInt8) :
    Command.ofInstruction (Line.calculate2 op var source).instruction =
      .data (.calculateFrom (some op) var source) :=
  congrArg (fun op => Command.data (.calculateFrom op var source)) op.ofCode?_code

theorem command_setBit (array bit : UInt8) (op : BitOp) :
    Command.ofInstruction (Line.setBit array bit op).instruction =
      .data (.setBit array bit (some op)) :=
  congrArg (fun op => Command.data (.setBit array bit op)) op.ofCode?_code

theorem command_compare (var : UInt8) (op : CompareOp) (value : Int16) :
    Command.ofInstruction (Line.compare var op value).instruction =
      .data (.compare var (some op) value) :=
  congr (congrArg (fun op value => Command.data (.compare var op value)) op.ofCode?_code)
    (toInt16_wordOf value)

/-- What a position line asks of the world. -/
theorem call_posSet (work : WorkTarget) (x y z : Int16) :
    WorldCall.ofInstruction? work (Line.posSet x y z).instruction =
      if work.kind = .player then some (.playerPosition ⟨x, y, z⟩) else none := by
  have hrecord : (Line.posSet x y z).instruction.record? 2 Position.layout = some ⟨x, y, z⟩ :=
    Position.lawful_layout.read?_write ⟨x, y, z⟩ []
  have hcall : WorldCall.ofInstruction? work (Line.posSet x y z).instruction =
      if work.kind = .player then
        ((Line.posSet x y z).instruction.record? 2 Position.layout).map .playerPosition
      else none := rfl
  rw [hcall, hrecord]
  rfl

/-- A thread that falls through the cases of a switch passes over their headers. -/
theorem step_case {value : Int16} {length : Nat}
    (hi : p.instructionAt position = .ok ((Line.case value).spanning length).instruction) :
    (m.placed position level s).step p slot = .running (m.placed (position + 6) level s) :=
  step_world hi (Command.ofInstruction_case value)

theorem step_default (hi : p.instructionAt position = .ok Line.default.instruction) :
    (m.placed position level s).step p slot = .running (m.placed (position + 2) level s) :=
  step_world hi Command.ofInstruction_default

/-- One iteration carries a statement out. -/
theorem step (a : Statement) (hi : p.instructionAt position = .ok a.line.instruction) :
    (m.placed position level s).step p slot =
      (m.placed (position + a.line.opcode.width) level (a.eval s).1).settle position
        ((a.eval s).2.signal position) := by
  cases a with
  | save var value => exact step_data hi (command_save var value) rfl rfl
  | copy target source => exact step_data hi rfl rfl rfl
  | calculate op var value =>
      have h := s.calculate_eq position op var value
      exact step_data hi (command_calculate op var value) h.1 h.2
  | calculateFrom op var source =>
      have h := Scene.calculate_eq { s with store := s.store.touchVar source } position op var
        (s.store.var source)
      exact step_data hi (command_calculate2 op var source) h.1 h.2
  | setBit array bit op =>
      cases op with
      | clear => exact step_data hi (command_setBit array bit .clear) rfl rfl
      | set => exact step_data hi (command_setBit array bit .set) rfl rfl
      | flip => exact step_data hi (command_setBit array bit .flip) rfl rfl
  | workSet kind index =>
      exact Machine.step_flow (m := m.placed position level s)
        (c := .workSet ⟨WorkKind.ofCode kind, index⟩) hi rfl
  | posSet x y z =>
      have h : (m.placed position level s).step p slot = .running _ :=
        step_world (i := (Line.posSet x y z).instruction) hi rfl
      rw [h, call_posSet]
      unfold Statement.eval
      split <;> rfl
  | cutChg camera => exact step_world hi rfl
  | nop => exact step_world hi rfl
  | goto => exact step_world hi rfl
  | checkBit array bit expected =>
      refine step_data hi rfl ?_ rfl
      simp only [Statement.eval, Store.readFlag, Ending.signal_ofCondition]
      rfl
  | compare var op value =>
      refine step_data hi (command_compare var op value) ?_ rfl
      simp only [Statement.eval, Store.readVar, Ending.signal_ofCondition]
      rfl

end Statement

end RoomScript
