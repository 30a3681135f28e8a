/- # Actions

A statement that is rendered has first to be read. What comes out is an action: what the
statement does, with its slots as expressions and with what it needs to know of its
surroundings. Targets see actions only.

A line that closes a block is read together with the line that opened it. Targets differ in
what they need to know at the end of a counting loop, and nothing more is read than that.
-/

import BlockCode.Expr.Literal
import BlockCode.Program.Slots
import BlockCode.Target.Basic
import BlockCode.Target.Error

namespace BlockCode

/-- The direction of a change. -/
inductive Direction where
  | up
  | down
  deriving DecidableEq, Repr, Inhabited

/-- What a target needs to know at the end of a counting loop. -/
inductive LoopFooter where
  | bare
  /-- The variable, for a target that names it again. -/
  | counter (counter : Expr)
  /-- The variable and its step, for a loop that has to advance by itself. -/
  | advance (direction : Direction) (counter : Expr) (step : Expr)
  deriving Repr, Inhabited

/-- What a statement does. -/
inductive Action where
  | assign (constant : Bool) (target : Expr) (value : Expr)
  | initializeArray (target : Expr) (items : List Expr)
  | fillArray (target : Expr) (value : Expr)
  | change (direction : Direction) (target : Expr) (amount : Expr)
  | output (items : List Expr)
  | ifThen (condition : Expr)
  | elseIf (condition : Expr)
  | otherwise
  | endIf
  | whileLoop (condition : Expr)
  | endWhile
  | doWhile
  | endDoWhile (condition : Expr)
  | count (direction : Direction) (counter : Expr) (first : Expr) (last : Expr) (step : Expr)
  | endCount (footer : LoopFooter)
  | defineFunction (name : String) (parameters : List Expr)
  | endFunction
  | callFunction (name : String) (args : List Expr)
  /-- A break, with the kind of the innermost loop around it. -/
  | leaveLoop (loop? : Option StatementKind)
  | region (label : String)
  | endRegion (label : String)
  deriving Repr, Inhabited

namespace Action

/-- The expressions that were read for the action. -/
def exprs : Action → List Expr
  | .assign _ target value | .fillArray target value | .change _ target value => [target, value]
  | .initializeArray target items => target :: items
  | .output items | .defineFunction _ items | .callFunction _ items => items
  | .ifThen condition | .elseIf condition | .whileLoop condition | .endDoWhile condition =>
    [condition]
  | .count _ counter first last step => [counter, first, last, step]
  | .endCount (.counter counter) => [counter]
  | .endCount (.advance _ counter step) => [counter, step]
  | _ => []

end Action

/-- Whether a counting loop with these bounds and step counts in fractions, as far as that can
be seen from literals. -/
def countsInFractions (bounds : List Expr) : Bool :=
  bounds.any Expr.isFractionalLiteral

namespace Statement

variable (s : Statement)

/-- The expression in a slot. -/
def exprIn (slot : Nat) : Except RenderError Expr :=
  (prepare (s.slot slot)).mapError (.expression s.id s.kind)

/-- The expressions in a list slot. -/
def exprsIn (slot : Nat) : Except RenderError (List Expr) :=
  (prepareList (s.slot slot)).mapError (.expression s.id s.kind)

/-- The text of a slot as it stands, trimmed. -/
def plainSlot (slot : Nat) : String :=
  trim (s.slot slot)

/-- The line that the statement closes the block of. -/
def openedBy (opener? : Option Statement) : Except RenderError Statement :=
  match opener? with
  | some opener => .ok opener
  | none => .error (.nothingToClose s.id s.kind)

/-- Whether one of the slots holds a fractional literal. Slots after such a one are not read. -/
def anyFraction : List Nat → Except RenderError Bool
  | [] => .ok false
  | slot :: rest => do
    if (← s.exprIn slot).isFractionalLiteral then return true else anyFraction rest

/-- The direction in which the statement counts. -/
def direction : Direction :=
  if s.kind == .forIncrement || s.kind == .increment then .up else .down

/-- What the target needs to know at the end of a counting loop. -/
def loopFooter (target : Target) (opener? : Option Statement) :
    Except RenderError LoopFooter :=
  match target with
  | .javaScript | .ruby => return .bare
  | .vba => do return .counter (← (← s.openedBy opener?).exprIn 0)
  | .python => do
    let opener ← s.openedBy opener?
    if ← opener.anyFraction [1, 2, 3] then
      return .advance opener.direction (← opener.exprIn 0) (← opener.exprIn 3)
    else return .bare

/-- What the statement does, where `loop?` is the kind of the innermost loop around it and
`opener?` the line whose block it closes. -/
def action (target : Target) (loop? : Option StatementKind) (opener? : Option Statement) :
    Except RenderError Action := do
  match s.kind with
  | .assign => return .assign s.isConstant (← s.exprIn 0) (← s.exprIn 1)
  | .initializeArray => do
    let items ← s.exprsIn 1
    return .initializeArray (← s.exprIn 0) items
  | .bulkAssign => return .fillArray (← s.exprIn 0) (← s.exprIn 1)
  | .increment | .decrement => return .change s.direction (← s.exprIn 0) (← s.exprIn 1)
  | .output => return .output (← (List.range s.slots.length).mapM s.exprIn)
  | .ifThen => return .ifThen (← s.exprIn 0)
  | .elseIf => return .elseIf (← s.exprIn 0)
  | .otherwise => return .otherwise
  | .endIf => return .endIf
  | .whileLoop => return .whileLoop (← s.exprIn 0)
  | .endWhile => return .endWhile
  | .doWhile => return .doWhile
  | .endDoWhile => return .endDoWhile (← (← s.openedBy opener?).exprIn 0)
  | .forIncrement | .forDecrement =>
    return .count s.direction (← s.exprIn 0) (← s.exprIn 1) (← s.exprIn 2) (← s.exprIn 3)
  | .endFor => return .endCount (← s.loopFooter target opener?)
  | .defineFunction => return .defineFunction (s.plainSlot 0) (← s.exprsIn 1)
  | .endFunction => return .endFunction
  | .callFunction => return .callFunction (s.plainSlot 0) (← s.exprsIn 1)
  | .breakLoop => return .leaveLoop loop?
  | .region => return .region (s.plainSlot 0)
  | .endRegion => return .endRegion ((← s.openedBy opener?).plainSlot 0)

end Statement

end BlockCode
