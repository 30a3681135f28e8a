/- # Forms

A statement is entered through a form. Its fields carry text under fixed keys: operands on a
left and a right side, numbered from zero, each with fields of its own, and a few fields that
only some kinds of statements have. A form lives for one edit and becomes the slots of a
statement.
-/

import BlockCode.Form.Grammar

namespace BlockCode

/-- The two sides of a statement. -/
inductive Side where
  | left
  | right
  deriving DecidableEq, Repr, Inhabited

/-- The name of the side, in keys and in messages. -/
def Side.label : Side → String
  | .left => "left"
  | .right => "right"

/-- What the form holds about one operand. -/
inductive OperandField where
  | text
  | type
  /-- The position in an array. -/
  | position
  /-- The function that is called with the operand. -/
  | function
  /-- How many arguments that function is said to take. -/
  | argumentCount
  /-- The operator between the operand and the next one of its side. -/
  | operator
  deriving DecidableEq, Repr, Inhabited

/-- The middle part of the key of an operand's field. -/
def OperandField.key : OperandField → String
  | .text => "operand"
  | .type => "type"
  | .position => "index"
  | .function => "function"
  | .argumentCount => "argc"
  | .operator => "operator"

/-- The fields that belong to the statement as a whole. -/
inductive StatementField where
  | comparisonOperator
  | isConstant
  | loopVariable
  | initialValue
  | endValue
  | stepValue
  | functionName
  | arguments
  | label
  deriving DecidableEq, Repr, Inhabited

/-- The key of the field. -/
def StatementField.key : StatementField → String
  | .comparisonOperator => "comparison_operator"
  | .isConstant => "is_constant"
  | .loopVariable => "loop_variable"
  | .initialValue => "initial_value"
  | .endValue => "end_value"
  | .stepValue => "step_value"
  | .functionName => "function_name"
  | .arguments => "arguments"
  | .label => "label"

/-- How messages speak of the field: its key in separate words. -/
def StatementField.phrase (field : StatementField) : String :=
  String.ofList (field.key.toList.map fun c => if c == '_' then ' ' else c)

/-- The fields that were filled in, each with its key. -/
abbrev Form := List (String × String)

namespace Form

/-- The text under a key, trimmed. A blank field counts as not filled in. -/
def get? (form : Form) (key : String) : Option String :=
  ((form.lookup key).map trim).filter fun text => !text.isEmpty

/-- A field of the statement as a whole. -/
def field? (form : Form) (field : StatementField) : Option String :=
  form.get? field.key

/-- A field of an operand. -/
def operandField? (form : Form) (side : Side) (field : OperandField) (i : Nat) : Option String :=
  form.get? (side.label ++ "_" ++ field.key ++ "_" ++ toString i)

/-- The text of an operand. -/
def operand? (form : Form) (side : Side) (i : Nat) : Option String :=
  form.operandField? side .text i

/-- How many operands a side has. They are counted from zero up to the first gap. -/
def operandCount (form : Form) (side : Side) : Nat :=
  ((List.range form.length).takeWhile fun i => (form.operand? side i).isSome).length

/-- Whether the form declares a constant. -/
def declaresConstant (form : Form) : Bool :=
  (form.field? .isConstant).any fun text => lowerAscii text == "true"

end Form

/-- The types that an operand can be declared to have. -/
inductive OperandType where
  | variable
  | number
  | string
  | array
  | boolean
  deriving DecidableEq, Repr, Inhabited

namespace OperandType

/-- The type of a name, in any case. -/
def ofName? (name : String) : Option OperandType :=
  let lower := lowerAscii (trim name)
  if lower == "variable" then some .variable
  else if lower == "number" then some .number
  else if lower == "string" then some .string
  else if lower == "array" then some .array
  else if lower == "boolean" then some .boolean
  else none

/-- The type that an operand seems to have when none is declared. -/
def infer (operand : String) : OperandType :=
  if isNumberText operand then .number
  else if isTruthWord (trim operand) then .boolean
  else if (trimChars operand.toList).head?.any fun c => c == '"' || c == '「' then .string
  else .variable

end OperandType

end BlockCode
