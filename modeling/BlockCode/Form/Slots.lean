/- # From a form to the slots of a statement

Every kind of statement takes its slots from certain fields. If all fields are in order, the
slots are checked once more as a whole: their brackets together, and each expression by
itself. What passes is read without an error when the statement is checked in a program.
-/

import BlockCode.Form.Operand
import BlockCode.Fragment.Prepare
import BlockCode.Program.Slots

namespace BlockCode

namespace Form

variable (form : Form) (functions : List FunctionSignature)

/-- The first left operand, as far as it has to be a plain name. -/
def leftName : Checked String := do
  let place := FormPlace.operand .left 0
  match form.operand? .left 0 with
  | none => Checked.given none place
  | some name =>
    checkName place name
    return name

/-- What a statement writes to: a variable or an element, or the name of a new constant. -/
def target (constant : Bool) : Checked String := do
  match form.operand? .left 0 with
  | none => Checked.given none (.operand .left 0)
  | some name =>
    if constant then
      Checked.require (isConstantName name) (.operand .left 0) (.constantName name)
      return name
    else form.operandText functions .left 0

/-- A field that has to hold a plain name. -/
def nameField (field : StatementField) : Checked String := do
  match form.field? field with
  | none => Checked.given none (.field field)
  | some name =>
    checkName (.field field) name
    return name

/-- The items of a list field, each of which is checked. A field that is not filled in is an
empty list. -/
def listField (field : StatementField) (check : String → Checked Unit) :
    Checked (List String) :=
  match form.field? field with
  | none => return []
  | some text =>
    (stringPiecesAt ',' (foldGlyphsText text)).mapM fun piece => do
      check (trim piece)
      return trim piece

/-- A bound or the step of a counting loop: a number or a name. -/
def loopBound (field : StatementField) : Checked String := do
  match form.field? field with
  | none => Checked.given none (.field field)
  | some text =>
    Checked.require (isNumberText text || isVariableName text) (.field field) (.number text)
    return text

/-- What a statement puts out. If there is any operator, the operands are joined to one. -/
def outputItems : Checked (List String) := do
  let count := form.operandCount .left
  if count == 0 then return [← Checked.given none (.operand .left 0)]
  else if (List.range (count - 1)).any fun i => (form.operandField? .left .operator i).isSome then
    return [← form.sideText functions .left]
  else (List.range count).mapM (form.operandText functions .left)

/-- A condition: the left side, or both sides with a comparison between them. -/
def condition : Checked String := do
  let left ← form.sideText functions .left
  let place := FormPlace.field .comparisonOperator
  match form.field? .comparisonOperator with
  | none =>
    Checked.require (form.operandCount .right == 0) place (.unknownOperator "")
    return left
  | some entered =>
    let op ← checkOperator place (some entered)
    let right ← form.sideText functions .right
    return left ++ " " ++ op ++ " " ++ right

/-- The variable, the bounds and the step of a counting loop. The step is one if none is
given. -/
def loopHeader : Checked (List String) := do
  let counter ← form.nameField .loopVariable
  let first ← form.loopBound .initialValue
  let last ← form.loopBound .endValue
  let step ←
    if (form.field? .stepValue).isSome then form.loopBound .stepValue else pure "1"
  return [counter, first, last, step]

/-- The name and the arguments of a call. -/
def callSlots : Checked (List String) := do
  let name ← form.nameField .functionName
  let args ← form.listField .arguments fun arg =>
    Checked.require (!arg.isEmpty) (.field .arguments) .missing
  if !name.isEmpty then
    match findFunction? functions name with
    | none => Checked.report (.field .functionName) (.undefinedFunction name)
    | some f =>
      Checked.require (f.parameters == args.length) (.field .arguments)
        (.argumentCount name f.parameters args.length)
  return [name, ", ".intercalate args]

/-- The slots of a statement, field by field. -/
def enteredSlots : StatementKind → Checked (List String)
  | .assign => do
    let target ← form.target functions form.declaresConstant
    return [target, ← form.sideText functions .right]
  | .initializeArray => do
    let name ← form.leftName
    let items ← (List.range (form.operandCount .right)).mapM (form.operandText functions .right)
    return [name, ", ".intercalate items]
  | .bulkAssign => do
    let name ← form.leftName
    return [name, ← form.sideText functions .right]
  | .increment | .decrement => do
    let target ← form.target functions false
    if form.operandCount .right == 0 then return [target, "1"]
    else return [target, ← form.sideText functions .right]
  | .output => form.outputItems functions
  | .ifThen | .elseIf | .whileLoop | .doWhile => return [← form.condition functions]
  | .forIncrement | .forDecrement => form.loopHeader
  | .defineFunction => do
    let name ← form.nameField .functionName
    let parameters ← form.listField .arguments (checkName (.field .arguments))
    return [name, ", ".intercalate parameters]
  | .callFunction => form.callSlots functions
  | .region => return [← Checked.given (form.field? .label) (.field .label)]
  | .otherwise | .endIf | .endWhile | .endDoWhile | .endFor | .endFunction | .breakLoop
  | .endRegion => return []

end Form

namespace Statement

/-- What is wrong with the slots as a whole: their brackets, or else each expression that does
not read. -/
def slotErrors (s : Statement) : List ExprError :=
  match bracketErrors (s.slots.map String.toList) with
  | [] =>
    s.expressionSlots.filterMap fun slot =>
      match s.readSlot slot with
      | .ok _ => none
      | .error e => some e
  | errors => errors.map .bracket

end Statement

/-- The slots that a form gives a statement of the kind, where the program defines the given
functions, or all errors of the form. -/
def Form.slots (form : Form) (functions : List FunctionSignature) (kind : StatementKind) :
    Except (List FormError) (List String) :=
  let entered := form.enteredSlots functions kind
  let statement : Statement := { id := "", kind, slots := entered.value }
  let errors :=
    if entered.errors.isEmpty then
      statement.slotErrors.map fun e => ⟨.statement, .expression e⟩
    else entered.errors
  if errors.isEmpty then .ok entered.value else .error errors

end BlockCode
