import RoomScript.Thread.Level

/-!
# Threads

A thread is one resumable run of an event: a position in the code, the call levels of the
subroutines it is in, the object it works on, and the events on its call chain. A dead thread has no
state of its own; it is the same value in every slot that holds none.

A pool has a fixed number of slots, each with a thread, alive or dead. An event is started either on
a slot that is named, which replaces the thread there, or on the lowest slot without a live thread. A
thread that starts an event keeps its own slot in both cases.
-/
namespace RoomScript

/-- Subroutine depth, the event's own level included. -/
abbrev maxCallLevels : Nat := 4

/-- The kind of object that a thread works on. -/
inductive WorkKind where
  | none | player | partner | enemy | object | door
  | other (code : UInt8)
  deriving DecidableEq

namespace WorkKind

def ofCode : UInt8 → WorkKind
  | 0 => .none
  | 1 => .player
  | 2 => .partner
  | 3 => .enemy
  | 4 => .object
  | 5 => .door
  | code => .other code

def code : WorkKind → UInt8
  | .none => 0
  | .player => 1
  | .partner => 2
  | .enemy => 3
  | .object => 4
  | .door => 5
  | .other code => code

@[simp] theorem code_ofCode (c : UInt8) : (ofCode c).code = c := by
  unfold ofCode
  split <;> rfl

/-- The first six codes have names, and each code above them is a kind of its own. -/
theorem ofCode_eq_iff {c : UInt8} {kind : WorkKind} :
    ofCode c = kind ↔ kind.code = c ∧ ∀ d, kind = .other d → 5 < d := by
  constructor
  · rintro rfl
    refine ⟨code_ofCode c, fun d hd => ?_⟩
    unfold ofCode at hd
    -- only the case without a name gives another kind
    split at hd <;> cases hd
    grind
  · rintro ⟨rfl, hother⟩
    cases kind with
    | other d =>
      have hd := hother d rfl
      rw [code, ofCode]
      all_goals
        rintro rfl
        exact absurd hd (by decide)
    | _ => rfl

end WorkKind

/-- The object that a thread works on. -/
structure WorkTarget where
  kind : WorkKind := .none
  index : UInt8 := 0
  deriving DecidableEq

inductive ThreadStatus where
  | dead
  /-- Alive, and not waiting for the next tick. -/
  | running
  /-- Alive, and parked until the next tick. -/
  | suspended
  deriving DecidableEq

structure Thread where
  status : ThreadStatus := .dead
  /-- The position of the next instruction. -/
  pc : Nat := 0
  /-- The call level in use; the event's own level is zero. -/
  depth : Fin maxCallLevels := 0
  work : WorkTarget := {}
  levels : Vector CallLevel maxCallLevels := Vector.replicate maxCallLevels {}
  /-- The events on the call chain, outermost first. -/
  callTrace : List UInt8 := []
  deriving DecidableEq

namespace Thread

/-- A slot without an event. -/
def dead : Thread := {}

/-- A thread about to run `event` from its entry point, with nothing open. -/
def start (entry : Nat) (event : UInt8) : Thread :=
  { status := .running, pc := entry, callTrace := [event] }

def isAlive (t : Thread) : Bool := t.status ≠ .dead

/-- The call level in use. -/
def level (t : Thread) : CallLevel := t.levels[t.depth]

def setLevel (t : Thread) (level : CallLevel) : Thread :=
  { t with levels := t.levels.set t.depth level }

/-- Enters a subroutine: a fresh call level that returns to the present position. -/
def call? (t : Thread) (entry : Nat) (event : UInt8) : Option Thread :=
  if h : t.depth.val + 1 < maxCallLevels then
    some { t with
      depth := ⟨t.depth.val + 1, h⟩
      levels := t.levels.set (t.depth.val + 1) { returnAddress := t.pc } h
      pc := entry
      callTrace := t.callTrace ++ [event] }
  else
    none

/-- Leaves a subroutine. Whatever it left open goes with its level; the caller's jump stack follows
the caller's own count of open blocks. -/
def return? (t : Thread) : Option Thread :=
  if t.depth.val = 0 then
    none
  else
    let caller : Fin maxCallLevels := ⟨t.depth.val - 1, by have := t.depth.isLt; omega⟩
    let levels := t.levels.set t.depth {}
    some { t with
      depth := caller
      levels := levels.set caller levels[caller].resyncJumpTop
      pc := t.level.returnAddress
      callTrace := t.callTrace.dropLast }

@[simp] theorem isAlive_dead : dead.isAlive = false := rfl

@[simp] theorem isAlive_start (entry : Nat) (event : UInt8) :
    (start entry event).isAlive = true := rfl

@[simp] theorem level_setLevel (t : Thread) (level : CallLevel) :
    (t.setLevel level).level = level := by
  simp [Thread.level, setLevel]

end Thread

abbrev maxThreads : Nat := 20

abbrev Slot : Type := Fin maxThreads

abbrev Pool : Type := Vector Thread maxThreads

/-- The slot byte that asks for the lowest dead slot. -/
def anySlot : UInt8 := 0xff

namespace Pool

/-- A pool of dead threads. -/
def vacant : Pool := Vector.replicate maxThreads Thread.dead

/-- The slot with a number, if the pool has one. -/
def slot? (number : Nat) : Option Slot :=
  if h : number < maxThreads then some ⟨number, h⟩ else none

/-- The thread in a slot. -/
def thread (pool : Pool) (slot : Slot) : Thread := pool[slot]

/-- The lowest slot without a live thread, passing over the one that is running. -/
def firstDead? (pool : Pool) (running : Option Slot) : Option Slot :=
  (List.finRange maxThreads).find? fun i => running ≠ some i ∧ !(pool.thread i).isAlive

/-- Where an event goes when a slot byte asks for a place, if it goes anywhere. -/
def place? (pool : Pool) (running : Option Slot) (requested : UInt8) : Option Slot :=
  if requested = anySlot then
    pool.firstDead? running
  else
    (slot? requested.toNat).filter fun i => running ≠ some i

def put (pool : Pool) (slot : Slot) (thread : Thread) : Pool := pool.set slot thread

def kill (pool : Pool) (slot : Slot) : Pool := pool.put slot Thread.dead

/-- How many threads are alive. -/
def live (pool : Pool) : Nat := pool.toList.countP Thread.isAlive

@[simp] theorem thread_put_self (pool : Pool) (slot : Slot) (thread : Thread) :
    (pool.put slot thread).thread slot = thread := by
  simp [Pool.thread, put]

theorem thread_put_of_ne {pool : Pool} {slot i : Slot} (h : slot ≠ i) (thread : Thread) :
    (pool.put slot thread).thread i = pool.thread i := by
  simp only [Pool.thread, put, Fin.getElem_fin]
  exact Vector.getElem_set_ne _ _ (fun e => h (Fin.ext e))

end Pool

end RoomScript
