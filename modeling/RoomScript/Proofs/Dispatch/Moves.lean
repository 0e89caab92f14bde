import RoomScript.Proofs.Dispatch.Loop

/-!
# What a step can do to a thread

Everything one iteration of the dispatch loop can do to the running thread, with what is known when it
does so. A call level together with the position at which it stands changes by one of the moves of
`CallLevel.Moves`; a thread moves within its level, enters a subroutine or leaves one. An iteration
that stops parks the thread, ends it, or leaves it on the instruction that failed. Store, pool and
world appear here only as choices: which of the moves happens may depend on them, what a move does not.
-/
namespace RoomScript

/-- The commands that leave the call level as it is and go on behind their instruction. A subroutine
call is one of them for the level that calls. -/
def Command.Passes : Command → Prop
  | .flow (.gosub _) => True
  | .flow (.workSet _) => True
  | .flow _ => False
  | .switch _ _ => False
  | .data _ => True
  | .event _ => True
  | .world _ => True

/-- The slot of a loop that opens on a level: its body starts at a position and leaving it early
resumes at another one. -/
def CallLevel.slot (l : CallLevel) (counter : UInt16) (start target : Nat) : LoopSlot :=
  { counter, breakTarget := target, savedBlocks := l.openBlocks, loopStart := start }

/-- One move of a call level that stands at a position. -/
inductive CallLevel.Moves (p : Program) (l : CallLevel) (position : Nat) : Nat → CallLevel → Prop
  | skip {byte : UInt8} :
      p.instructionAt position = .error (.unknownOpcode byte) → Moves p l position (position + 1) l
  | pass {i : Instruction} :
      p.instructionAt position = .ok i → (Command.ofInstruction i).Passes →
      Moves p l position (position + i.width) l
  | openIf {i : Instruction} {length : UInt16} {l' : CallLevel} :
      p.instructionAt position = .ok i → Command.ofInstruction i = .flow (.openIf length) →
      l.openBlock? (position + i.width + length.toNat) = some l' →
      Moves p l position (position + i.width) l'
  | openElse {i : Instruction} {length : UInt16} {target : Nat} {l' : CallLevel} :
      p.instructionAt position = .ok i → Command.ofInstruction i = .flow (.openElse length) →
      l.closeBlock? = some (target, l') →
      Moves p l position (position + i.width + length.toNat) l'
  | closeIf {i : Instruction} {target : Nat} {l' : CallLevel} :
      p.instructionAt position = .ok i → Command.ofInstruction i = .flow .closeIf →
      l.closeBlock? = some (target, l') → Moves p l position (position + i.width) l'
  | sleep {i : Instruction} {ticks : UInt16} {l' : CallLevel} :
      p.instructionAt position = .ok i → Command.ofInstruction i = .flow (.sleep ticks) →
      l.pushLoop? (l.slot ticks (position + i.width) (position + i.width)) = some l' →
      Moves p l position (position + i.width) l'
  | wake {i : Instruction} {slot : LoopSlot} :
      p.instructionAt position = .ok i → Command.ofInstruction i = .flow .sleeping →
      l.currentLoop? = some slot → slot.counter = 0 →
      Moves p l position (position + i.width) l.popLoop
  | passFor {i : Instruction} {length : UInt16} :
      p.instructionAt position = .ok i → Command.ofInstruction i = .flow (.openFor length 0) →
      Moves p l position (position + i.width + length.toNat) l
  | openFor {i : Instruction} {length count : UInt16} {l' : CallLevel} :
      p.instructionAt position = .ok i → Command.ofInstruction i = .flow (.openFor length count) →
      count ≠ 0 →
      l.pushLoop? (l.slot count (position + i.width) (position + i.width + length.toNat)) = some l' →
      Moves p l position (position + i.width) l'
  | again {i : Instruction} {slot : LoopSlot} :
      p.instructionAt position = .ok i → Command.ofInstruction i = .flow .next →
      l.currentLoop? = some slot → 1 < slot.counter →
      Moves p l position slot.loopStart (l.setLoop { slot with counter := slot.counter - 1 })
  | closeFor {i : Instruction} {slot : LoopSlot} :
      p.instructionAt position = .ok i → Command.ofInstruction i = .flow .next →
      l.currentLoop? = some slot → slot.counter ≤ 1 →
      Moves p l position (position + i.width) (l.setLoop { slot with counter := 0 }).popLoop
  | closeSwitch {i : Instruction} {slot : LoopSlot} :
      p.instructionAt position = .ok i → Command.ofInstruction i = .flow .closeSwitch →
      l.currentLoop? = some slot → Moves p l position (position + i.width) l.popLoop
  | breakOut {i : Instruction} {slot : LoopSlot} :
      p.instructionAt position = .ok i → Command.ofInstruction i = .flow .breakOut →
      l.currentLoop? = some slot →
      Moves p l position slot.breakTarget
        { l with openBlocks := slot.savedBlocks }.resyncJumpTop.popLoop
  | takeCase {i : Instruction} {id : UInt8} {length : UInt16} {value : Int16} {target : Nat}
      {l' : CallLevel} :
      p.instructionAt position = .ok i → Command.ofInstruction i = .switch id length →
      l.pushLoop? (l.slot 0 (position + i.width) (position + i.width + length.toNat)) = some l' →
      Landing.find p.code value (position + i.width) = .ok (.body target) →
      Moves p l position target l'
  | passSwitch {i : Instruction} {id : UInt8} {length : UInt16} {value : Int16} {target : Nat}
      {l' : CallLevel} :
      p.instructionAt position = .ok i → Command.ofInstruction i = .switch id length →
      l.pushLoop? (l.slot 0 (position + i.width) (position + i.width + length.toNat)) = some l' →
      Landing.find p.code value (position + i.width) = .ok (.past target) →
      Moves p l position target l'.popLoop
  | unwind {i : Instruction} {c : DataCommand} {target : Nat} {l' : CallLevel} :
      p.instructionAt position = .ok i → Command.ofInstruction i = .data c →
      l.openBlocks ≠ 0 → l.closeBlock? = some (target, l') →
      Moves p l position target l'.dropExitedLoops

/-- The commands that close a conditional block. -/
def Command.ClosesBlock : Command → Prop
  | .flow (.openElse _) => True
  | .flow .closeIf => True
  | _ => False

/-- The commands that open a loop, switch or sleep. -/
def Command.OpensLoop : Command → Prop
  | .flow (.sleep _) => True
  | .flow (.openFor _ _) => True
  | .switch _ _ => True
  | _ => False

/-- The commands that need an open loop, switch or sleep. -/
def Command.NeedsLoop : Command → Prop
  | .flow .sleeping => True
  | .flow .next => True
  | .flow .closeSwitch => True
  | .flow .breakOut => True
  | _ => False

/-- The faults of an instruction that leave its call level as it was, and when they happen. -/
inductive CallLevel.Fails (p : Program) (l : CallLevel) (position : Nat) : Fault → Prop
  | decode {cause : DecodeError} :
      p.instructionAt position = .error cause → (∀ byte, cause ≠ .unknownOpcode byte) →
      Fails p l position (.decode position cause)
  | unknownSubroutine {i : Instruction} {event : UInt8} :
      p.instructionAt position = .ok i → Command.ofInstruction i = .flow (.gosub event) →
      p.entry? event = none → Fails p l position (.unknownEvent event)
  | unknownEvent {i : Instruction} {slot event : UInt8} :
      p.instructionAt position = .ok i → Command.ofInstruction i = .event (.exec slot event) →
      p.entry? event = none → Fails p l position (.unknownEvent event)
  | callStackOverflow {i : Instruction} {event : UInt8} :
      p.instructionAt position = .ok i → Command.ofInstruction i = .flow (.gosub event) →
      Fails p l position (.callStackOverflow position)
  | callStackUnderflow {i : Instruction} :
      p.instructionAt position = .ok i → Command.ofInstruction i = .flow .ret →
      Fails p l position (.callStackUnderflow position)
  | jumpStackOverflow {i : Instruction} {length : UInt16} :
      p.instructionAt position = .ok i → Command.ofInstruction i = .flow (.openIf length) →
      l.openBlock? (position + i.width + length.toNat) = none →
      Fails p l position (.jumpStackOverflow position)
  | jumpStackUnderflow {i : Instruction} :
      p.instructionAt position = .ok i → (Command.ofInstruction i).ClosesBlock →
      l.closeBlock? = none → Fails p l position (.jumpStackUnderflow position)
  | loopOverflow {i : Instruction} {slot : LoopSlot} :
      p.instructionAt position = .ok i → (Command.ofInstruction i).OpensLoop →
      l.pushLoop? slot = none → Fails p l position (.loopOverflow position)
  | noEnclosingLoop {i : Instruction} :
      p.instructionAt position = .ok i → (Command.ofInstruction i).NeedsLoop →
      l.currentLoop? = none → Fails p l position (.noEnclosingLoop position)
  | divisionByZero {i : Instruction} {c : DataCommand} :
      p.instructionAt position = .ok i → Command.ofInstruction i = .data c →
      Fails p l position (.divisionByZero position)
  /-- A condition is false, and the jump stack is empty although a block is open. -/
  | unwind {i : Instruction} {c : DataCommand} :
      p.instructionAt position = .ok i → Command.ofInstruction i = .data c →
      l.openBlocks ≠ 0 → l.closeBlock? = none →
      Fails p l position (.jumpStackUnderflow position)

/-- What an instruction does to its call level although the iteration stops there. -/
inductive CallLevel.Rests (p : Program) (l : CallLevel) (position : Nat) :
    Except Fault Outcome → CallLevel → Prop
  /-- A sleep counts down. -/
  | asleep {i : Instruction} {slot : LoopSlot} :
      p.instructionAt position = .ok i → Command.ofInstruction i = .flow .sleeping →
      l.currentLoop? = some slot → slot.counter ≠ 0 →
      Rests p l position (.ok .suspended) (l.setLoop { slot with counter := slot.counter - 1 })
  /-- A condition is false outside all blocks. -/
  | unwound {i : Instruction} {c : DataCommand} :
      p.instructionAt position = .ok i → Command.ofInstruction i = .data c → l.openBlocks = 0 →
      Rests p l position (.ok .unwound) l
  | failed {fault : Fault} : l.Fails p position fault → Rests p l position (.error fault) l
  /-- A switch without a landing has opened its slot. -/
  | stuck {i : Instruction} {id : UInt8} {length : UInt16} {value : Int16} {fault : Fault}
      {l' : CallLevel} :
      p.instructionAt position = .ok i → Command.ofInstruction i = .switch id length →
      l.pushLoop? (l.slot 0 (position + i.width) (position + i.width + length.toNat)) = some l' →
      Landing.find p.code value (position + i.width) = .error fault →
      Rests p l position (.error fault) l'

namespace Thread

/-- The thread at another position, with another call level in use. -/
def within (t : Thread) (pc : Nat) (level : CallLevel) : Thread := { t.setLevel level with pc }

/-- One iteration that goes on. -/
inductive Moves (p : Program) (t : Thread) : Thread → Prop
  | within {pc : Nat} {level : CallLevel} (work : WorkTarget) :
      t.level.Moves p t.pc pc level → Moves p t { t.within pc level with work }
  | call {i : Instruction} {event : UInt8} {entry : Nat} {t' : Thread} :
      p.instructionAt t.pc = .ok i → Command.ofInstruction i = .flow (.gosub event) →
      p.entry? event = some entry →
      (t.within (t.pc + i.width) t.level).call? entry event = some t' → Moves p t t'
  | leave {i : Instruction} {t' : Thread} :
      p.instructionAt t.pc = .ok i →
      Command.ofInstruction i = .flow .ret ∨ Command.ofInstruction i = .flow .endEvent →
      t.return? = some t' → Moves p t t'

/-- One iteration that stops. -/
inductive Stops (p : Program) (t : Thread) : Except Fault Outcome → Thread → Prop
  | park {outcome : Outcome} {level : CallLevel} :
      t.level.Rests p t.pc (.ok outcome) level →
      Stops p t (.ok outcome) { t.within t.pc level with status := .suspended }
  | fail {fault : Fault} {level : CallLevel} :
      t.level.Rests p t.pc (.error fault) level → Stops p t (.error fault) (t.within t.pc level)
  | finish : Stops p t (.ok .terminated) dead

@[simp] theorem setLevel_level (t : Thread) : t.setLevel t.level = t := by
  simp [setLevel, level]

theorem within_level (t : Thread) (pc : Nat) : t.within pc t.level = { t with pc } := by
  simp only [within, setLevel_level]

@[simp] theorem within_self (t : Thread) : t.within t.pc t.level = t := by
  rw [within_level]

@[simp] theorem level_within (t : Thread) (pc : Nat) (level : CallLevel) :
    (t.within pc level).level = level := t.level_setLevel level

section Switch

variable {t : Thread} {code : Array UInt8} {pc : Nat} {value : Int16} {length : UInt16}
  {level : CallLevel}

theorem switch_of_full (h : t.level.pushLoop? (t.level.slot 0 pc (pc + length.toNat)) = none) :
    Thread.switch { t with pc } code t.pc value length =
      ({ t with pc }, .error (.loopOverflow t.pc)) := by
  simp only [Thread.level, CallLevel.slot] at h
  simp only [Thread.switch, Thread.level, h]

theorem switch_of_stuck {fault : Fault}
    (h : t.level.pushLoop? (t.level.slot 0 pc (pc + length.toNat)) = some level)
    (hf : Landing.find code value pc = .error fault) :
    Thread.switch { t with pc } code t.pc value length = (t.within pc level, .error fault) := by
  simp only [Thread.level, CallLevel.slot] at h
  simp only [Thread.switch, Thread.level, h, hf]
  rfl

theorem switch_of_body {target : Nat}
    (h : t.level.pushLoop? (t.level.slot 0 pc (pc + length.toNat)) = some level)
    (hf : Landing.find code value pc = .ok (.body target)) :
    Thread.switch { t with pc } code t.pc value length = (t.within target level, .ok ()) := by
  simp only [Thread.level, CallLevel.slot] at h
  simp only [Thread.switch, Thread.level, h, hf]
  rfl

theorem switch_of_past {target : Nat}
    (h : t.level.pushLoop? (t.level.slot 0 pc (pc + length.toNat)) = some level)
    (hf : Landing.find code value pc = .ok (.past target)) :
    Thread.switch { t with pc } code t.pc value length =
      (t.within target level.popLoop, .ok ()) := by
  simp only [Thread.level, CallLevel.slot] at h
  simp only [Thread.switch, Thread.level, h, hf, Thread.setLevel, Thread.within,
    Vector.set_set]

end Switch

end Thread

theorem Signal.ofCondition_cases (holds : Bool) :
    ofCondition holds = .proceed ∨ ofCondition holds = .conditionFalse := by
  cases holds
  · exact .inr rfl
  · exact .inl rfl

theorem Store.signal_of_calculate {s : Store} {position : Nat} {op : CalcOp} {id : UInt8}
    {rhs : Int16} {signal : Signal} (h : (s.calculate position op id rhs).2 = .ok signal) :
    signal = .proceed := by
  simp only [Store.calculate] at h
  split at h <;> cases h
  rfl

/-- A data command goes on or reports a false condition. -/
theorem DataCommand.signal_of_run {position : Nat} {s : Store} {signal : Signal}
    (c : DataCommand) (h : (c.run position s).2 = .ok signal) :
    signal = .proceed ∨ signal = .conditionFalse := by
  unfold DataCommand.run at h
  split at h
  case h_1 => exact Except.ok.inj h ▸ Signal.ofCondition_cases _
  case h_7 => exact Except.ok.inj h ▸ Signal.ofCondition_cases _
  case h_11 => exact .inl (Store.signal_of_calculate h)
  case h_13 => exact .inl (Store.signal_of_calculate h)
  all_goals
    cases h
    first
    | exact .inl rfl
    | exact .inr rfl

theorem Store.fault_of_calculate {s : Store} {position : Nat} {op : CalcOp} {id : UInt8}
    {rhs : Int16} {fault : Fault} (h : (s.calculate position op id rhs).2 = .error fault) :
    fault = .divisionByZero position := by
  simp only [Store.calculate] at h
  split at h <;> cases h
  rfl

theorem DataCommand.fault_of_run {position : Nat} {s : Store} {fault : Fault} (c : DataCommand)
    (h : (c.run position s).2 = .error fault) : fault = .divisionByZero position := by
  unfold DataCommand.run at h
  split at h
  case h_11 => exact Store.fault_of_calculate h
  case h_13 => exact Store.fault_of_calculate h
  all_goals cases h

/-- An event command goes on or ends the thread. -/
theorem EventCommand.signal_of_run {p : Program} {slot : Slot} {pool pool' : Pool}
    {signal : Signal} (c : EventCommand) (h : c.run p slot pool = .ok (pool', signal)) :
    signal = .proceed ∨ signal = .finish := by
  cases c with
  | exec requested event =>
      simp only [EventCommand.run] at h
      split at h
      · cases h
      · split at h
        · cases h
          exact .inl rfl
        · cases h
          exact .inl rfl
  | kill number =>
      simp only [EventCommand.run] at h
      split at h
      · cases h
        exact .inr rfl
      · split at h
        · cases h
          exact .inl rfl
        · cases h
          exact .inl rfl

/-- An event command fails only when it is to start an event that is not there. -/
theorem EventCommand.fault_of_run {p : Program} {slot : Slot} {pool : Pool} {fault : Fault}
    {c : EventCommand} (h : c.run p slot pool = .error fault) :
    ∃ requested event, c = .exec requested event ∧ p.entry? event = none ∧
      fault = .unknownEvent event := by
  cases c with
  | exec requested event =>
      simp only [EventCommand.run] at h
      split at h
      · rename_i hentry
        cases h
        exact ⟨requested, event, rfl, hentry, rfl⟩
      · split at h <;> cases h
  | kill number =>
      simp only [EventCommand.run] at h
      split at h
      · cases h
      · split at h <;> cases h

/-- What the loop does next is one of the moves or one of the stops of the thread. -/
def Progress.Follows (p : Program) (t : Thread) : Progress → Prop
  | .running m => t.Moves p m.thread
  | .stopped m result => t.Stops p result m.thread

namespace Machine

variable {p : Program} {slot : Slot} {m : Machine} {i : Instruction}

/-- A failed instruction leaves the thread as it was. -/
theorem stops_fault {t : Thread} {fault : Fault} (hf : t.level.Fails p t.pc fault) :
    t.Stops p (.error fault) t := by
  have h : t.Stops p (.error fault) (t.within t.pc t.level) := .fail (.failed hf)
  rwa [Thread.within_self] at h

/-- An instruction that only goes on moves the position alone. -/
theorem moves_pass {t : Thread} (hi : p.instructionAt t.pc = .ok i)
    (hc : (Command.ofInstruction i).Passes) (work : WorkTarget) :
    t.Moves p { t with pc := t.pc + i.width, work } := by
  have h := Thread.Moves.within work (.pass hi hc)
  rwa [Thread.within_level] at h

theorem moves_level {t : Thread} {pc : Nat} {level : CallLevel}
    (h : t.level.Moves p t.pc pc level) : t.Moves p (t.within pc level) :=
  Thread.Moves.within t.work h

theorem moves_leave {t t' : Thread} {signal : Signal} (hi : p.instructionAt t.pc = .ok i)
    (hc : Command.ofInstruction i = .flow .ret ∨ Command.ofInstruction i = .flow .endEvent)
    (h : Thread.leave { t with pc := t.pc + i.width } t.pc = .ok (t', signal)) :
    signal = .proceed ∧ t.Moves p t' := by
  unfold Thread.leave at h
  split at h
  · rename_i caller hr
    cases h
    exact ⟨rfl, .leave hi hc hr⟩
  · cases h

theorem moves_openLoop {t t' : Thread} {signal : Signal} {counter : UInt16} {target : Nat}
    (hm : ∀ l, t.level.pushLoop? (t.level.slot counter (t.pc + i.width) target) = some l →
      t.level.Moves p t.pc (t.pc + i.width) l)
    (h : Thread.openLoop { t with pc := t.pc + i.width } t.pc counter target = .ok (t', signal)) :
    signal = .proceed ∧ t.Moves p t' := by
  simp only [Thread.openLoop] at h
  split at h
  · rename_i l hl
    cases h
    exact ⟨rfl, moves_level (hm l hl)⟩
  · cases h

theorem moves_closeIf {t t' : Thread} {signal : Signal} {length : UInt16}
    (h : Thread.closeIf { t with pc := t.pc + i.width } t.pc length = .ok (t', signal))
    (hm : ∀ target l, t.level.closeBlock? = some (target, l) →
      t.level.Moves p t.pc (t.pc + i.width + length.toNat) l) : signal = .proceed ∧ t.Moves p t' := by
  simp only [Thread.closeIf] at h
  split at h
  · rename_i target l hl
    cases h
    exact ⟨rfl, moves_level (hm target l hl)⟩
  · cases h

/-- What a flow command that succeeds does to the thread, told by the signal it leaves. -/
theorem follows_flow_signal {t t' : Thread} {c : FlowCommand} {signal : Signal}
    (hi : p.instructionAt t.pc = .ok i) (hc : Command.ofInstruction i = .flow c)
    (h : c.run p t.pc { t with pc := t.pc + i.width } = .ok (t', signal)) :
    (signal = .proceed ∧ t.Moves p t') ∨ signal = .finish ∨
      (signal = .yield ∧ t.Stops p (.ok .suspended) { t' with status := .suspended }) := by
  cases c with
  | endEvent =>
      simp only [FlowCommand.run] at h
      split at h
      · cases h
        exact .inr (.inl rfl)
      · exact .inl (moves_leave hi (.inr hc) h)
  | ret => exact .inl (moves_leave hi (.inl hc) h)
  | gosub event =>
      simp only [FlowCommand.run] at h
      split at h
      · cases h
      · rename_i entry he
        split at h
        · rename_i callee ht
          cases h
          exact .inl ⟨rfl, .call hi hc he (by rwa [Thread.within_level])⟩
        · cases h
  | openIf length =>
      simp only [FlowCommand.run, Thread.openIf] at h
      split at h
      · rename_i l hl
        cases h
        exact .inl ⟨rfl, moves_level (.openIf hi hc hl)⟩
      · cases h
  | openElse length => exact .inl (moves_closeIf h fun _ _ hl => .openElse hi hc hl)
  | closeIf => exact .inl (moves_closeIf h fun _ _ hl => .closeIf hi hc hl)
  | sleep ticks => exact .inl (moves_openLoop (fun l hl => .sleep hi hc hl) h)
  | sleeping =>
      simp only [FlowCommand.run] at h
      split at h
      · cases h
      · rename_i slot hl
        split at h
        · rename_i hz
          cases h
          exact .inl ⟨rfl, moves_level (.wake hi hc hl hz)⟩
        · rename_i hz
          cases h
          exact .inr (.inr ⟨rfl, .park (.asleep hi hc hl hz)⟩)
  | openFor length count =>
      simp only [FlowCommand.run] at h
      split at h
      · rename_i hz
        cases h
        subst hz
        have hm := Thread.Moves.within t.work (.passFor hi hc)
        rw [Thread.within_level] at hm
        exact .inl ⟨rfl, hm⟩
      · rename_i hz
        exact .inl (moves_openLoop (fun l hl => .openFor hi hc hz hl) h)
  | next =>
      simp only [FlowCommand.run] at h
      split at h
      · cases h
      · rename_i slot hl
        split at h
        · rename_i hn
          cases h
          exact .inl ⟨rfl, moves_level (.again hi hc hl hn)⟩
        · rename_i hn
          cases h
          exact .inl ⟨rfl, moves_level (.closeFor hi hc hl (UInt16.not_lt.mp hn))⟩
  | closeSwitch =>
      simp only [FlowCommand.run] at h
      split at h
      · cases h
      · rename_i slot hl
        cases h
        exact .inl ⟨rfl, moves_level (.closeSwitch hi hc hl)⟩
  | breakOut =>
      simp only [FlowCommand.run] at h
      split at h
      · cases h
      · rename_i slot hl
        cases h
        exact .inl ⟨rfl, moves_level (.breakOut hi hc hl)⟩
  | workSet target =>
      cases h
      exact .inl ⟨rfl, moves_pass hi (by rw [hc]; trivial) target⟩

theorem fails_closeIf {t : Thread} {fault : Fault} {length : UInt16}
    (hi : p.instructionAt t.pc = .ok i) (hc : (Command.ofInstruction i).ClosesBlock)
    (h : Thread.closeIf { t with pc := t.pc + i.width } t.pc length = .error fault) :
    t.level.Fails p t.pc fault := by
  unfold Thread.closeIf at h
  split at h
  · cases h
  · rename_i hb
    cases h
    exact .jumpStackUnderflow hi hc hb

theorem fails_openLoop {t : Thread} {fault : Fault} {counter : UInt16} {target : Nat}
    (hi : p.instructionAt t.pc = .ok i) (hc : (Command.ofInstruction i).OpensLoop)
    (h : Thread.openLoop { t with pc := t.pc + i.width } t.pc counter target = .error fault) :
    t.level.Fails p t.pc fault := by
  simp only [Thread.openLoop] at h
  split at h
  · cases h
  · rename_i hl
    cases h
    exact .loopOverflow hi hc hl

theorem fails_flow {t : Thread} {c : FlowCommand} {fault : Fault}
    (hi : p.instructionAt t.pc = .ok i) (hc : Command.ofInstruction i = .flow c)
    (h : c.run p t.pc { t with pc := t.pc + i.width } = .error fault) :
    t.level.Fails p t.pc fault := by
  cases c with
  | endEvent =>
      simp only [FlowCommand.run] at h
      split at h
      · cases h
      · rename_i hd
        simp only [Thread.leave, Thread.return?, hd, if_false] at h
        cases h
  | ret =>
      simp only [FlowCommand.run, Thread.leave] at h
      split at h <;> cases h
      exact .callStackUnderflow hi hc
  | gosub event =>
      simp only [FlowCommand.run] at h
      split at h
      · rename_i he
        cases h
        exact .unknownSubroutine hi hc he
      · split at h <;> cases h
        exact .callStackOverflow hi hc
  | openIf length =>
      simp only [FlowCommand.run, Thread.openIf] at h
      split at h
      · cases h
      · rename_i hb
        cases h
        exact .jumpStackOverflow hi hc hb
  | openElse length => exact fails_closeIf hi (by rw [hc]; trivial) h
  | closeIf => exact fails_closeIf hi (by rw [hc]; trivial) h
  | sleep ticks => exact fails_openLoop hi (by rw [hc]; trivial) h
  | openFor length count =>
      simp only [FlowCommand.run] at h
      split at h
      · cases h
      · exact fails_openLoop hi (by rw [hc]; trivial) h
  | workSet target => cases h
  | sleeping =>
      simp only [FlowCommand.run] at h
      split at h
      · rename_i hl
        cases h
        exact .noEnclosingLoop hi (by rw [hc]; trivial) hl
      · split at h <;> cases h
  | next =>
      simp only [FlowCommand.run] at h
      split at h
      · rename_i hl
        cases h
        exact .noEnclosingLoop hi (by rw [hc]; trivial) hl
      · split at h <;> cases h
  | _ =>
      simp only [FlowCommand.run] at h
      split at h
      · rename_i hl
        cases h
        exact .noEnclosingLoop hi (by rw [hc]; trivial) hl
      · cases h

theorem follows_flow {c : FlowCommand} (hi : p.instructionAt m.thread.pc = .ok i)
    (hc : Command.ofInstruction i = .flow c) : (m.step p slot).Follows p m.thread := by
  rw [step_flow hi hc]
  cases hr : c.run p m.thread.pc { m.thread with pc := m.thread.pc + i.width } with
  | error fault => exact stops_fault (fails_flow hi hc hr)
  | ok ran =>
      obtain ⟨t', signal⟩ := ran
      rcases follows_flow_signal hi hc hr with ⟨rfl, hm⟩ | rfl | ⟨rfl, hs⟩
      · exact hm
      · exact Thread.Stops.finish
      · exact hs

/-- A failed condition leaves a block, or parks the thread when there is none. -/
theorem follows_unwind {c : DataCommand} {m' : Machine} (hi : p.instructionAt m.thread.pc = .ok i)
    (hc : Command.ofInstruction i = .data c)
    (ht : m'.thread = { m.thread with pc := m.thread.pc + i.width }) :
    (m'.unwind m.thread.pc).Follows p m.thread := by
  have hl : m'.thread.level = m.thread.level := by rw [ht]; rfl
  simp only [unwind, hl]
  split
  · rename_i ho
    have hs := Thread.Stops.park (.unwound hi hc ho)
    rw [Thread.within_self] at hs
    simpa only [Progress.Follows, park, goto, ht] using hs
  · rename_i ho
    split
    · rename_i hb
      have hs := stops_fault (.unwind hi hc ho hb)
      simpa only [Progress.Follows, goto, ht] using hs
    · rename_i target level hb
      simp only [Progress.Follows, ht]
      exact moves_level (.unwind hi hc ho hb)

theorem follows_data {c : DataCommand} (hi : p.instructionAt m.thread.pc = .ok i)
    (hc : Command.ofInstruction i = .data c) : (m.step p slot).Follows p m.thread := by
  rw [step_data hi hc]
  cases hr : (c.run m.thread.pc m.store).2 with
  | error fault =>
      rw [c.fault_of_run hr]
      exact stops_fault (.divisionByZero hi hc)
  | ok signal =>
      rcases c.signal_of_run hr with rfl | rfl
      · exact moves_pass hi (by rw [hc]; trivial) m.thread.work
      · exact follows_unwind hi hc rfl

theorem follows_event {c : EventCommand} (hi : p.instructionAt m.thread.pc = .ok i)
    (hc : Command.ofInstruction i = .event c) : (m.step p slot).Follows p m.thread := by
  rw [step_event hi hc]
  cases hr : c.run p slot m.pool with
  | error fault =>
      obtain ⟨requested, event, rfl, he, rfl⟩ := EventCommand.fault_of_run hr
      exact stops_fault (.unknownEvent hi hc he)
  | ok ran =>
      obtain ⟨pool, signal⟩ := ran
      rcases c.signal_of_run hr with rfl | rfl
      · exact moves_pass hi (by rw [hc]; trivial) m.thread.work
      · exact Thread.Stops.finish

section Switch

variable {id : UInt8} {length : UInt16} {level : CallLevel} {target : Nat} {fault : Fault}

theorem step_switch_of_full (hi : p.instructionAt m.thread.pc = .ok i)
    (hc : Command.ofInstruction i = .switch id length)
    (hl : m.thread.level.pushLoop? (m.thread.level.slot 0 (m.thread.pc + i.width)
      (m.thread.pc + i.width + length.toNat)) = none) :
    m.step p slot = .stopped { m with store := m.store.touchVar id }
      (.error (.loopOverflow m.thread.pc)) := by
  rw [step_switch hi hc, Thread.switch_of_full hl]
  rfl

theorem step_switch_of_stuck (hi : p.instructionAt m.thread.pc = .ok i)
    (hc : Command.ofInstruction i = .switch id length)
    (hl : m.thread.level.pushLoop? (m.thread.level.slot 0 (m.thread.pc + i.width)
      (m.thread.pc + i.width + length.toNat)) = some level)
    (hf : Landing.find p.code (m.store.var id) (m.thread.pc + i.width) = .error fault) :
    m.step p slot = .stopped { m with
      thread := m.thread.within m.thread.pc level, store := m.store.touchVar id } (.error fault) := by
  rw [step_switch hi hc, Thread.switch_of_stuck hl hf]
  rfl

theorem step_switch_of_body (hi : p.instructionAt m.thread.pc = .ok i)
    (hc : Command.ofInstruction i = .switch id length)
    (hl : m.thread.level.pushLoop? (m.thread.level.slot 0 (m.thread.pc + i.width)
      (m.thread.pc + i.width + length.toNat)) = some level)
    (hf : Landing.find p.code (m.store.var id) (m.thread.pc + i.width) = .ok (.body target)) :
    m.step p slot = .running { m with
      thread := m.thread.within target level, store := m.store.touchVar id } := by
  rw [step_switch hi hc, Thread.switch_of_body hl hf]

theorem step_switch_of_past (hi : p.instructionAt m.thread.pc = .ok i)
    (hc : Command.ofInstruction i = .switch id length)
    (hl : m.thread.level.pushLoop? (m.thread.level.slot 0 (m.thread.pc + i.width)
      (m.thread.pc + i.width + length.toNat)) = some level)
    (hf : Landing.find p.code (m.store.var id) (m.thread.pc + i.width) = .ok (.past target)) :
    m.step p slot = .running { m with
      thread := m.thread.within target level.popLoop, store := m.store.touchVar id } := by
  rw [step_switch hi hc, Thread.switch_of_past hl hf]

/-- What a switch may come to that starts to look for its landing at one position and ends at another. -/
inductive TakesSwitch (p : Program) (m : Machine) (id : UInt8) (start stop : Nat) : Progress → Prop
  | full : m.thread.level.pushLoop? (m.thread.level.slot 0 start stop) = none →
      TakesSwitch p m id start stop
        (.stopped { m with store := m.store.touchVar id } (.error (.loopOverflow m.thread.pc)))
  | stuck {fault : Fault} {level : CallLevel} :
      m.thread.level.pushLoop? (m.thread.level.slot 0 start stop) = some level →
      Landing.find p.code (m.store.var id) start = .error fault →
      TakesSwitch p m id start stop
        (.stopped { m with
          thread := m.thread.within m.thread.pc level, store := m.store.touchVar id } (.error fault))
  | body {target : Nat} {level : CallLevel} :
      m.thread.level.pushLoop? (m.thread.level.slot 0 start stop) = some level →
      Landing.find p.code (m.store.var id) start = .ok (.body target) →
      TakesSwitch p m id start stop
        (.running { m with thread := m.thread.within target level, store := m.store.touchVar id })
  | past {target : Nat} {level : CallLevel} :
      m.thread.level.pushLoop? (m.thread.level.slot 0 start stop) = some level →
      Landing.find p.code (m.store.var id) start = .ok (.past target) →
      TakesSwitch p m id start stop
        (.running { m with
          thread := m.thread.within target level.popLoop, store := m.store.touchVar id })

theorem takesSwitch (slot : Slot) (hi : p.instructionAt m.thread.pc = .ok i)
    (hc : Command.ofInstruction i = .switch id length) :
    m.TakesSwitch p id (m.thread.pc + i.width) (m.thread.pc + i.width + length.toNat)
      (m.step p slot) := by
  cases hl : m.thread.level.pushLoop? (m.thread.level.slot 0 (m.thread.pc + i.width)
    (m.thread.pc + i.width + length.toNat)) with
  | none =>
      rw [step_switch_of_full hi hc hl]
      exact .full hl
  | some level =>
      cases hf : Landing.find p.code (m.store.var id) (m.thread.pc + i.width) with
      | error fault =>
          rw [step_switch_of_stuck hi hc hl hf]
          exact .stuck hl hf
      | ok landing =>
          cases landing with
          | body target =>
              rw [step_switch_of_body hi hc hl hf]
              exact .body hl hf
          | past target =>
              rw [step_switch_of_past hi hc hl hf]
              exact .past hl hf

theorem follows_switch (hi : p.instructionAt m.thread.pc = .ok i)
    (hc : Command.ofInstruction i = .switch id length) : (m.step p slot).Follows p m.thread := by
  have h := takesSwitch slot hi hc
  generalize m.step p slot = next at h
  cases h with
  | full hl => exact stops_fault (.loopOverflow hi (by rw [hc]; trivial) hl)
  | stuck hl hf => exact .fail (.stuck hi hc hl hf)
  | body hl hf => exact moves_level (.takeCase hi hc hl hf)
  | past hl hf => exact moves_level (.passSwitch hi hc hl hf)

end Switch

/-- One iteration of the loop is one of the moves or one of the stops of the thread. -/
theorem step_follows (p : Program) (slot : Slot) (m : Machine) :
    (m.step p slot).Follows p m.thread := by
  cases hi : p.instructionAt m.thread.pc with
  | error cause =>
      cases cause with
      | unknownOpcode byte =>
          rw [step_unknown hi]
          have h := Thread.Moves.within m.thread.work (.skip hi)
          rwa [Thread.within_level] at h
      | _ =>
          rw [step_undecodable hi (by simp)]
          exact stops_fault (.decode hi (by simp))
  | ok i =>
      cases hc : Command.ofInstruction i with
      | flow c => exact follows_flow hi hc
      | data c => exact follows_data hi hc
      | event c => exact follows_event hi hc
      | switch id length => exact follows_switch hi hc
      | world i' =>
          rw [step_world hi hc]
          exact moves_pass hi (by rw [hc]; trivial) m.thread.work

theorem moves_of_running {m' : Machine} (h : m.step p slot = .running m') :
    m.thread.Moves p m'.thread := by
  have hf := step_follows p slot m
  rwa [h] at hf

theorem stops_of_stopped {m' : Machine} {result : Except Fault Outcome}
    (h : m.step p slot = .stopped m' result) : m.thread.Stops p result m'.thread := by
  have hf := step_follows p slot m
  rwa [h] at hf

end Machine

end RoomScript
