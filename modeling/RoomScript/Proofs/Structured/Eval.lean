import RoomScript.Proofs.Structured.Syntax
import RoomScript.Store
import RoomScript.World

/-!
# What structured code means

The meaning of a body, told without positions, jumps and stacks. Statements act on a scene: the store, the
object that the thread works on, and the calls made to the world. They end by coming to their end, by a
failed condition, by a break, or in a trap. A failed condition is caught by the innermost if-body around
it, a break by the innermost loop or switch, and whatever was opened in between is over. There is room for
only so many if-bodies and so many loops inside one another; opening one more is a trap.
-/
namespace RoomScript

/-- Statements that open no block: those that act, and the two conditions. -/
inductive Statement where
  | save (var : UInt8) (value : Int16)
  | copy (target source : UInt8)
  | calculate (op : CalcOp) (var : UInt8) (value : Int16)
  | calculateFrom (op : CalcOp) (var source : UInt8)
  | setBit (array bit : UInt8) (op : BitOp)
  | workSet (kind index : UInt8)
  | posSet (x y z : Int16)
  | cutChg (camera : UInt8)
  | nop
  | goto
  | checkBit (array bit expected : UInt8)
  | compare (var : UInt8) (op : CompareOp) (value : Int16)
  deriving DecidableEq

namespace Statement

def line : Statement → Line
  | .save var value => .save var value
  | .copy target source => .copy target source
  | .calculate op var value => .calculate op var value
  | .calculateFrom op var source => .calculate2 op var source
  | .setBit array bit op => .setBit array bit op
  | .workSet kind index => .workSet kind index
  | .posSet x y z => .posSet x y z
  | .cutChg camera => .cutChg camera
  | .nop => .nop
  | .goto => .goto
  | .checkBit array bit expected => .checkBit array bit expected
  | .compare var op value => .compare var op value

instance : Leaf Statement := ⟨fun a => [a.line]⟩

end Statement

/-- What statements act on. -/
structure Scene where
  store : Store
  work : WorkTarget := {}
  calls : Array WorldCall := #[]
  deriving DecidableEq

/-- Why statements cannot go on. -/
inductive Trap where
  | divisionByZero
  | jumpStackOverflow
  | loopOverflow
  deriving DecidableEq

/-- How statements end. -/
inductive Ending where
  | done
  /-- A condition failed outside all if-bodies among the statements. -/
  | failed
  /-- A break left all loops and switches among the statements. -/
  | broke
  | trapped (trap : Trap)
  deriving DecidableEq

namespace Scene

/-- Gives a variable the value of an operation on it. -/
def calculate (s : Scene) (op : CalcOp) (var : UInt8) (rhs : Int16) : Scene × Ending :=
  let (lhs, store) := s.store.readVar var
  match op.eval? lhs rhs with
  | some value => ({ s with store := store.setVar var value }, .done)
  | none => ({ s with store }, .trapped .divisionByZero)

def call (s : Scene) (call : WorldCall) : Scene := { s with calls := s.calls.push call }

end Scene

/-- The ending of a condition. -/
def Ending.ofCondition (holds : Bool) : Ending := if holds then .done else .failed

/-- What a statement does. Reading a flag or a variable leaves its trace in the store. -/
def Statement.eval (s : Scene) : Statement → Scene × Ending
  | .save var value => ({ s with store := s.store.setVar var value }, .done)
  | .copy target source =>
    let (value, store) := s.store.readVar source
    ({ s with store := store.setVar target value }, .done)
  | .calculate op var value => s.calculate op var value
  | .calculateFrom op var source =>
    let (value, store) := s.store.readVar source
    { s with store }.calculate op var value
  | .setBit array bit .clear => ({ s with store := s.store.setFlag array bit false }, .done)
  | .setBit array bit .set => ({ s with store := s.store.setFlag array bit true }, .done)
  | .setBit array bit .flip =>
    ({ s with store := s.store.setFlag array bit (!s.store.flag array bit) }, .done)
  | .workSet kind index => ({ s with work := ⟨WorkKind.ofCode kind, index⟩ }, .done)
  | .posSet x y z =>
    (if s.work.kind = .player then s.call (.playerPosition ⟨x, y, z⟩) else s, .done)
  | .cutChg camera => (s.call (.camera camera), .done)
  | .nop => (s, .done)
  | .goto => (s, .done)
  | .checkBit array bit expected =>
    let (value, store) := s.store.readFlag array bit
    ({ s with store }, .ofCondition (value.toUInt8 = expected))
  | .compare var op value =>
    let (lhs, store) := s.store.readVar var
    ({ s with store }, .ofCondition (op.test lhs value))

namespace Ending

/-- Goes on with more statements when the first have come to their end. -/
def andThen (r : Scene × Ending) (k : Scene → Scene × Ending) : Scene × Ending :=
  match r with
  | (s, .done) => k s
  | r => r

/-- Catches a failed condition. -/
def orElse (r : Scene × Ending) (k : Scene → Scene × Ending) : Scene × Ending :=
  match r with
  | (s, .failed) => k s
  | r => r

/-- Catches a break. -/
def leaving (r : Scene × Ending) : Scene × Ending :=
  match r with
  | (s, .broke) => (s, .done)
  | r => r

/-- Runs the same statements a number of times. -/
def iterate (f : Scene → Scene × Ending) : Nat → Scene → Scene × Ending
  | 0, s => (s, .done)
  | n + 1, s => andThen (f s) (iterate f n)

end Ending

/-- How many if-bodies and how many loops and switches can still be opened. -/
structure Room where
  blocks : Nat
  loops : Nat

namespace Room

/-- Runs the statements of an if-body, if there is room for it. -/
def block (room : Room) (s : Scene) (f : Room → Scene × Ending) : Scene × Ending :=
  if room.blocks = 0 then (s, .trapped .jumpStackOverflow)
  else f { room with blocks := room.blocks - 1 }

/-- Runs the statements of a loop or switch, if there is room for it. -/
def loop (room : Room) (s : Scene) (f : Room → Scene × Ending) : Scene × Ending :=
  if room.loops = 0 then (s, .trapped .loopOverflow)
  else f { room with loops := room.loops - 1 }

end Room

open Ending

mutual

/-- What the statements of a body do. -/
def Body.eval : Body Statement → Room → Scene → Scene × Ending
  | .done, _, s => (s, .done)
  | .leaf a rest, room, s => andThen (a.eval s) (rest.eval room)
  | .ifThen body rest, room, s =>
    andThen (room.block s fun inner => orElse (body.eval inner s) fun s => (s, .done))
      (rest.eval room)
  | .ifElse body other rest, room, s =>
    andThen (room.block s fun inner => orElse (body.eval inner s) (other.eval room))
      (rest.eval room)
  | .loop count body rest, room, s =>
    andThen
      (if count = 0 then (s, .done)
        else room.loop s fun inner => leaving (iterate (body.eval inner) count.toNat s))
      (rest.eval room)
  | .switch var cases rest, room, s =>
    andThen
      (room.loop { s with store := s.store.touchVar var } fun inner =>
        leaving (cases.enter (s.store.var var) inner { s with store := s.store.touchVar var }))
      (rest.eval room)
  | .breakOut _, _, s => (s, .broke)

/-- What the bodies of cases do from the first of them on. -/
def Cases.fall : Cases Statement → Room → Scene → Scene × Ending
  | .none, _, s => (s, .done)
  | .default body, room, s => body.eval room s
  | .case _ body rest, room, s => andThen (body.eval room s) (rest.fall room)

/-- What cases do for a value: the first case for it runs, and then all bodies behind it; if there is
none, the default runs. -/
def Cases.enter (value : Int16) : Cases Statement → Room → Scene → Scene × Ending
  | .none, _, s => (s, .done)
  | .default body, room, s => body.eval room s
  | .case v body rest, room, s =>
    if v = value then andThen (body.eval room s) (rest.fall room) else rest.enter value room s

end

/-- Two endings are the same, and no trap for want of room. -/
def Ending.Agree (r r' : Scene × Ending) : Prop :=
  r = r' ∧ ∀ trap, r.2 = .trapped trap → trap = .divisionByZero

namespace Ending.Agree

variable {r r' : Scene × Ending} {k k' : Scene → Scene × Ending}

theorem done (s : Scene) : Agree (s, .done) (s, .done) := ⟨rfl, nofun⟩

theorem andThen (h : Agree r r') (hk : ∀ s, Agree (k s) (k' s)) :
    Agree (Ending.andThen r k) (Ending.andThen r' k') := by
  obtain ⟨rfl, htrap⟩ := h
  obtain ⟨s, e⟩ := r
  cases e with
  | done => exact hk s
  | failed => exact ⟨rfl, htrap⟩
  | broke => exact ⟨rfl, htrap⟩
  | trapped trap => exact ⟨rfl, htrap⟩

theorem orElse (h : Agree r r') (hk : ∀ s, Agree (k s) (k' s)) :
    Agree (Ending.orElse r k) (Ending.orElse r' k') := by
  obtain ⟨rfl, htrap⟩ := h
  obtain ⟨s, e⟩ := r
  cases e with
  | failed => exact hk s
  | done => exact ⟨rfl, htrap⟩
  | broke => exact ⟨rfl, htrap⟩
  | trapped trap => exact ⟨rfl, htrap⟩

theorem leaving (h : Agree r r') : Agree (Ending.leaving r) (Ending.leaving r') := by
  obtain ⟨rfl, htrap⟩ := h
  obtain ⟨s, e⟩ := r
  cases e with
  | broke => exact .done s
  | done => exact ⟨rfl, htrap⟩
  | failed => exact ⟨rfl, htrap⟩
  | trapped trap => exact ⟨rfl, htrap⟩

theorem iterate (hk : ∀ s, Agree (k s) (k' s)) (n : Nat) (s : Scene) :
    Agree (Ending.iterate k n s) (Ending.iterate k' n s) := by
  induction n generalizing s with
  | zero => exact .done s
  | succ n ih => exact (hk s).andThen ih

end Ending.Agree

/-- A room holds so many if-bodies and so many loops. -/
def Room.Holds (room : Room) (blocks loops : Nat) : Prop :=
  blocks ≤ room.blocks ∧ loops ≤ room.loops

namespace Room

variable {room room' : Room} {s : Scene} {f f' : Room → Scene × Ending} {blocks loops : Nat}

theorem Holds.split {blocks' loops' : Nat} (h : room.Holds (max blocks blocks') (max loops loops')) :
    room.Holds blocks loops ∧ room.Holds blocks' loops' := by
  obtain ⟨hb, hl⟩ := h
  rw [Nat.max_le] at hb hl
  exact ⟨⟨hb.1, hl.1⟩, ⟨hb.2, hl.2⟩⟩

theorem agree_block (h : room.Holds (blocks + 1) loops) (h' : room'.Holds (blocks + 1) loops)
    (hf : ∀ {inner inner' : Room}, inner.Holds blocks loops → inner'.Holds blocks loops →
      Agree (f inner) (f' inner')) : Agree (room.block s f) (room'.block s f') := by
  have hb := h.1
  have hb' := h'.1
  rw [block, block, if_neg (by omega), if_neg (by omega)]
  exact hf ⟨Nat.le_sub_one_of_lt hb, h.2⟩ ⟨Nat.le_sub_one_of_lt hb', h'.2⟩

theorem agree_loop (h : room.Holds blocks (loops + 1)) (h' : room'.Holds blocks (loops + 1))
    (hf : ∀ {inner inner' : Room}, inner.Holds blocks loops → inner'.Holds blocks loops →
      Agree (f inner) (f' inner')) : Agree (room.loop s f) (room'.loop s f') := by
  have hl := h.2
  have hl' := h'.2
  rw [loop, loop, if_neg (by omega), if_neg (by omega)]
  exact hf ⟨h.1, Nat.le_sub_one_of_lt hl⟩ ⟨h'.1, Nat.le_sub_one_of_lt hl'⟩

end Room

theorem Scene.agree_calculate (s : Scene) (op : CalcOp) (var : UInt8) (rhs : Int16) :
    Agree (s.calculate op var rhs) (s.calculate op var rhs) := by
  constructor
  · rfl
  · intro trap h
    simp only [calculate] at h
    split at h <;> cases h
    rfl

theorem Ending.agree_ofCondition (s : Scene) (holds : Bool) :
    Agree (s, ofCondition holds) (s, ofCondition holds) := by
  constructor
  · rfl
  · intro trap h
    simp only [ofCondition] at h
    split at h <;> cases h

/-- A statement traps only by a division. -/
theorem Statement.agree (a : Statement) (s : Scene) : Agree (a.eval s) (a.eval s) := by
  cases a with
  | calculate op var value => exact s.agree_calculate op var value
  | calculateFrom op var source => exact Scene.agree_calculate _ op var _
  | setBit array bit op => cases op <;> exact ⟨rfl, nofun⟩
  | checkBit array bit expected => exact Ending.agree_ofCondition _ _
  | compare var op value => exact Ending.agree_ofCondition _ _
  | _ => exact ⟨rfl, nofun⟩

/-- No statement breaks by itself. -/
theorem Statement.eval_ne_broke (a : Statement) (s : Scene) : (a.eval s).2 ≠ .broke := by
  cases a with
  | calculate op var value =>
      simp only [eval, Scene.calculate]
      split <;> simp
  | calculateFrom op var source =>
      simp only [eval, Scene.calculate]
      split <;> simp
  | setBit array bit op => cases op <;> simp [eval]
  | checkBit array bit expected =>
      simp only [eval, Ending.ofCondition]
      split <;> simp
  | compare var op value =>
      simp only [eval, Ending.ofCondition]
      split <;> simp
  | _ => simp [eval]

mutual

/-- A body means the same in all rooms that hold it, and never wants for room there. -/
theorem Body.agree : ∀ (b : Body Statement) {room room' : Room},
    room.Holds b.ifDepth b.loopDepth → room'.Holds b.ifDepth b.loopDepth →
      ∀ s, Agree (b.eval room s) (b.eval room' s)
  | .done, _, _, _, _, s => .done s
  | .leaf a rest, _, _, h, h', s =>
    (a.agree s).andThen (rest.agree ⟨h.1, (Nat.max_le.mp h.2).2⟩ ⟨h'.1, (Nat.max_le.mp h'.2).2⟩)
  | .ifThen body rest, _, _, h, h', s => by
      obtain ⟨hb, hr⟩ := Room.Holds.split h
      obtain ⟨hb', hr'⟩ := Room.Holds.split h'
      refine .andThen (Room.agree_block hb hb' fun hi hi' => ?_) (rest.agree hr hr')
      exact (body.agree hi hi' s).orElse .done
  | .ifElse body other rest, _, _, h, h', s => by
      obtain ⟨hb, hr⟩ := Room.Holds.split h
      obtain ⟨hb', hr'⟩ := Room.Holds.split h'
      obtain ⟨ho, hr⟩ := hr.split
      obtain ⟨ho', hr'⟩ := hr'.split
      refine .andThen (Room.agree_block hb hb' fun hi hi' => ?_) (rest.agree hr hr')
      exact (body.agree hi hi' s).orElse (other.agree ho ho')
  | .loop count body rest, _, _, h, h', s => by
      obtain ⟨hb, hr⟩ := Room.Holds.split h
      obtain ⟨hb', hr'⟩ := Room.Holds.split h'
      refine .andThen ?_ (rest.agree hr hr')
      split
      · exact .done s
      · refine Room.agree_loop hb hb' fun hi hi' => ?_
        exact (Ending.Agree.iterate (body.agree hi hi') count.toNat s).leaving
  | .switch var cases rest, _, _, h, h', s => by
      obtain ⟨hc, hr⟩ := Room.Holds.split h
      obtain ⟨hc', hr'⟩ := Room.Holds.split h'
      refine .andThen (Room.agree_loop hc hc' fun hi hi' => ?_) (rest.agree hr hr')
      exact (cases.agree_enter (s.store.var var) hi hi' _).leaving
  | .breakOut _, _, _, _, _, _ => ⟨rfl, nofun⟩

theorem Cases.agree_fall : ∀ (c : Cases Statement) {room room' : Room},
    room.Holds c.ifDepth c.loopDepth → room'.Holds c.ifDepth c.loopDepth →
      ∀ s, Agree (c.fall room s) (c.fall room' s)
  | .none, _, _, _, _, s => .done s
  | .default body, _, _, h, h', s => body.agree h h' s
  | .case _ body rest, _, _, h, h', s => by
      obtain ⟨hb, hr⟩ := Room.Holds.split h
      obtain ⟨hb', hr'⟩ := Room.Holds.split h'
      exact (body.agree hb hb' s).andThen (rest.agree_fall hr hr')

theorem Cases.agree_enter (value : Int16) : ∀ (c : Cases Statement) {room room' : Room},
    room.Holds c.ifDepth c.loopDepth → room'.Holds c.ifDepth c.loopDepth →
      ∀ s, Agree (c.enter value room s) (c.enter value room' s)
  | .none, _, _, _, _, s => .done s
  | .default body, _, _, h, h', s => body.agree h h' s
  | .case v body rest, _, _, h, h', s => by
      obtain ⟨hb, hr⟩ := Room.Holds.split h
      obtain ⟨hb', hr'⟩ := Room.Holds.split h'
      unfold Cases.enter
      split
      · exact (body.agree hb hb' s).andThen (rest.agree_fall hr hr')
      · exact rest.agree_enter value hr hr' s

end

end RoomScript
