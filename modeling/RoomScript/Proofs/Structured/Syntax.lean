import RoomScript.Assembly

/-!
# Structured code

The body of a function as a tree of statements. Its statements either open a block, or are leaves that
stand for a few lines each. A body is written line by line: `steps` are the steps of assembly that write
it, and `lines` are the lines that come out of them, with all lengths filled in.

How deep the if-bodies and the loops of a body are nested, and whether every break stands in a loop, is
counted over the same tree. An else-body is not one of the if-bodies around its statements: when it runs,
its own if is closed. A sleep counts as a loop, since it takes a loop slot while it lasts.
-/
namespace RoomScript

/-- Statements that open no block, by the lines that they stand for. -/
class Leaf (α : Type) where
  lines : α → List Line

mutual

/-- A list of statements. -/
inductive Body (α : Type) where
  | done
  | leaf (a : α) (rest : Body α)
  | ifThen (body rest : Body α)
  | ifElse (body other rest : Body α)
  | loop (count : UInt16) (body rest : Body α)
  | switch (var : UInt8) (cases : Cases α) (rest : Body α)
  | breakOut (rest : Body α)

/-- The cases of a switch, with a default behind them or without one. -/
inductive Cases (α : Type) where
  | none
  | default (body : Body α)
  | case (value : Int16) (body : Body α) (rest : Cases α)

end

namespace Line

/-- The line with the length of a block filled in: every opening line keeps it behind its first
operand. -/
def spanning (l : Line) (length : Nat) : Line :=
  { l with
    operands := l.operands.getD 0 0 :: wordBytes (UInt16.ofNat length) ++ l.operands.drop 3 }

def endif : Line := { opcode := .endif }

def next : Line := { opcode := .next }

def eswitch : Line := { opcode := .eswitch }

@[simp] theorem width_ifelCk : ifelCk.opcode.width = 4 := rfl

@[simp] theorem width_elseCk : elseCk.opcode.width = 4 := rfl

@[simp] theorem width_endif : endif.opcode.width = 2 := rfl

@[simp] theorem width_forLoop (count : UInt16) : (forLoop count).opcode.width = 6 := rfl

@[simp] theorem width_next : next.opcode.width = 2 := rfl

@[simp] theorem width_switch (var : UInt8) : (switch var).opcode.width = 4 := rfl

@[simp] theorem width_eswitch : eswitch.opcode.width = 2 := rfl

@[simp] theorem width_case (value : Int16) : (case value).opcode.width = 6 := rfl

@[simp] theorem width_default : default.opcode.width = 2 := rfl

@[simp] theorem width_breakOut : breakOut.opcode.width = 2 := rfl

@[simp] theorem opcode_spanning (l : Line) (length : Nat) : (l.spanning length).opcode = l.opcode := rfl

end Line

variable {α : Type}

mutual

/-- How many blocks the steps of a body open. -/
def Body.opened : Body α → Nat
  | .done => 0
  | .leaf _ rest => rest.opened
  | .ifThen body rest => 1 + body.opened + rest.opened
  | .ifElse body other rest => 1 + body.opened + 1 + other.opened + rest.opened
  | .loop _ body rest => 1 + body.opened + rest.opened
  | .switch _ cases rest => 1 + cases.opened + rest.opened
  | .breakOut rest => rest.opened

def Cases.opened : Cases α → Nat
  | .none => 0
  | .default body => body.opened
  | .case _ body rest => 1 + body.opened + rest.opened

end

mutual

/-- Whether every break stands in a loop or switch, when the body itself stands in one or does not. -/
def Body.breaksIn (inLoop : Bool) : Body α → Bool
  | .done => true
  | .leaf _ rest => rest.breaksIn inLoop
  | .ifThen body rest => body.breaksIn inLoop && rest.breaksIn inLoop
  | .ifElse body other rest =>
    body.breaksIn inLoop && (other.breaksIn inLoop && rest.breaksIn inLoop)
  | .loop _ body rest => body.breaksIn true && rest.breaksIn inLoop
  | .switch _ cases rest => cases.breaksIn && rest.breaksIn inLoop
  | .breakOut rest => inLoop && rest.breaksIn inLoop

def Cases.breaksIn : Cases α → Bool
  | .none => true
  | .default body => body.breaksIn true
  | .case _ body rest => body.breaksIn true && rest.breaksIn

end

mutual

/-- How many if-bodies are nested in one another. -/
def Body.ifDepth : Body α → Nat
  | .done => 0
  | .leaf _ rest => rest.ifDepth
  | .ifThen body rest => max (body.ifDepth + 1) rest.ifDepth
  | .ifElse body other rest => max (body.ifDepth + 1) (max other.ifDepth rest.ifDepth)
  | .loop _ body rest => max body.ifDepth rest.ifDepth
  | .switch _ cases rest => max cases.ifDepth rest.ifDepth
  | .breakOut rest => rest.ifDepth

def Cases.ifDepth : Cases α → Nat
  | .none => 0
  | .default body => body.ifDepth
  | .case _ body rest => max body.ifDepth rest.ifDepth

end

variable [Leaf α]

mutual

/-- The steps that write a body when `n` blocks have been opened before. -/
def Body.steps (n : Nat) : Body α → List Step
  | .done => []
  | .leaf a rest => .emit (Leaf.lines a) :: rest.steps n
  | .ifThen body rest =>
    .opening .ifelCk :: (body.steps (n + 1) ++
      .close .endIf n :: rest.steps (n + 1 + body.opened))
  | .ifElse body other rest =>
    .opening .ifelCk :: (body.steps (n + 1) ++
      .openElse n :: (other.steps (n + 1 + body.opened + 1) ++
        .close .endIf (n + 1 + body.opened) ::
          rest.steps (n + 1 + body.opened + 1 + other.opened)))
  | .loop count body rest =>
    .opening (.forLoop count) :: (body.steps (n + 1) ++
      .close .next n :: rest.steps (n + 1 + body.opened))
  | .switch var cases rest =>
    .opening (.switch var) :: (cases.steps (n + 1) ++
      .close .endSwitch n :: rest.steps (n + 1 + cases.opened))
  | .breakOut rest => .emit [.breakOut] :: rest.steps n

def Cases.steps (n : Nat) : Cases α → List Step
  | .none => []
  | .default body => .emit [.default] :: body.steps n
  | .case value body rest =>
    .opening (.case value) :: (body.steps (n + 1) ++
      .close .endCase n :: rest.steps (n + 1 + body.opened))

end

mutual

/-- The lines of a body. -/
def Body.lines : Body α → List Line
  | .done => []
  | .leaf a rest => Leaf.lines a ++ rest.lines
  | .ifThen body rest =>
    Line.ifelCk.spanning (Line.extent body.lines + 2) :: (body.lines ++ .endif :: rest.lines)
  | .ifElse body other rest =>
    Line.ifelCk.spanning (Line.extent body.lines + 4) :: (body.lines ++
      Line.elseCk.spanning (Line.extent other.lines) :: (other.lines ++ rest.lines))
  | .loop count body rest =>
    (Line.forLoop count).spanning (Line.extent body.lines + 2) ::
      (body.lines ++ .next :: rest.lines)
  | .switch var cases rest =>
    (Line.switch var).spanning (Line.extent cases.lines + 2) ::
      (cases.lines ++ .eswitch :: rest.lines)
  | .breakOut rest => .breakOut :: rest.lines

def Cases.lines : Cases α → List Line
  | .none => []
  | .default body => .default :: body.lines
  | .case value body rest =>
    (Line.case value).spanning (Line.extent body.lines) :: (body.lines ++ rest.lines)

end

mutual

/-- All lines can be written, and all lengths fit a word. -/
def Body.Fits : Body α → Prop
  | .done => True
  | .leaf a rest => (∀ l ∈ Leaf.lines a, l.Fits) ∧ rest.Fits
  | .ifThen body rest =>
    Line.extent body.lines + 2 < UInt16.size ∧ body.Fits ∧ rest.Fits
  | .ifElse body other rest =>
    Line.extent body.lines + 4 < UInt16.size ∧ Line.extent other.lines < UInt16.size ∧
      body.Fits ∧ other.Fits ∧ rest.Fits
  | .loop _ body rest => Line.extent body.lines + 2 < UInt16.size ∧ body.Fits ∧ rest.Fits
  | .switch _ cases rest => Line.extent cases.lines + 2 < UInt16.size ∧ cases.Fits ∧ rest.Fits
  | .breakOut rest => rest.Fits

def Cases.Fits : Cases α → Prop
  | .none => True
  | .default body => body.Fits
  | .case _ body rest => Line.extent body.lines < UInt16.size ∧ body.Fits ∧ rest.Fits

end

/-- All steps in order, up to the first that fails. -/
def Listing.build (l : Listing) : List Step → Except AssemblyError Listing
  | [] => .ok l
  | step :: rest =>
    match l.perform step with
    | (l, .ok _) => l.build rest
    | (_, .error e) => .error e

/-- The code of the function with a body, which an `EVT_END` closes. -/
def Body.function (body : Body α) : Except AssemblyError (List UInt8) :=
  (Listing.build {} (body.steps 0 ++ [.emit [.evtEnd]])).map Listing.code

/-- The loop slots that a leaf takes on its own. -/
def Leaf.slots (a : α) : Nat := (Leaf.lines a).countP fun l => l.opcode = .sleep

mutual

/-- How many loops, switches and sleeps are nested in one another. -/
def Body.loopDepth : Body α → Nat
  | .done => 0
  | .leaf a rest => max (Leaf.slots a) rest.loopDepth
  | .ifThen body rest => max body.loopDepth rest.loopDepth
  | .ifElse body other rest => max body.loopDepth (max other.loopDepth rest.loopDepth)
  | .loop _ body rest => max (body.loopDepth + 1) rest.loopDepth
  | .switch _ cases rest => max (cases.loopDepth + 1) rest.loopDepth
  | .breakOut rest => rest.loopDepth

def Cases.loopDepth : Cases α → Nat
  | .none => 0
  | .default body => body.loopDepth
  | .case _ body rest => max body.loopDepth rest.loopDepth

end

end RoomScript
