/- # Operands of a form

One operand becomes the text of an expression: a number, a name with or without a position, a
truth value, a string in quotes, or a call with the operand as its arguments. The operands of
a side are joined by the operators between them.
-/

import BlockCode.Check.Function
import BlockCode.Expr.Precedence
import BlockCode.Form.Error
import BlockCode.Number.Written

namespace BlockCode

/-- The text without the given characters around it, if both are there. -/
def enclosed? (first last : Char) : List Char → Option (List Char)
  | [] => none
  | c :: rest => if c == first && rest.getLast? == some last then some rest.dropLast else none

/-- The contents of a string operand, which may be typed with or without quotes around it. -/
def stringContents (operand : List Char) : List Char :=
  (enclosed? '"' '"' operand).getD ((enclosed? '「' '」' operand).getD operand)

/-- The contents with a backslash before everything that could end the string. -/
def escapedContents (contents : List Char) : List Char :=
  contents.flatMap fun c =>
    if c == '\\' || c == '"' || c == '「' || c == '」' then ['\\', c] else [c]

/-- A string operand as a literal. -/
def stringLiteral (operand : String) : String :=
  String.ofList ('"' :: escapedContents (stringContents operand.toList) ++ ['"'])

/-- The number of arguments in a list of them. Blank ones do not count. -/
def argumentsIn (text : String) : Nat :=
  let folded := text.toList.map fun c => if c == '、' then ',' else c
  ((piecesAt ',' folded).filter fun piece => !(trimChars piece).isEmpty).length

/-- Whether the text is one operator that stands between two operands. -/
def isBinaryOperator (text : String) : Bool :=
  match lex text with
  | .ok [token] => token.kind.binaryOp?.isSome
  | _ => false

/-- A name that has to be a variable name. -/
def checkName (place : FormPlace) (name : String) : Checked Unit :=
  Checked.require (isVariableName name) place (.variableName name)

/-- An operator as it was entered, which has to be one. -/
def checkOperator (place : FormPlace) : Option String → Checked String
  | none => do
    Checked.report place (.unknownOperator "")
    return ""
  | some entered => do
    let op := trim (foldGlyphsText entered)
    Checked.require (isBinaryOperator op) place (.unknownOperator entered)
    return op

/-- A call of a built-in. The count that the form declares, if it is one, has to be right as
well. -/
def builtinCall (place : FormPlace) (function : Builtin) (args : String)
    (declared : Option Nat) : Checked String := do
  let found := argumentsIn args
  Checked.require (found == function.arity && declared.all (· == function.arity)) place
    (.argumentCount function.name function.arity found)
  return function.name ++ "(" ++ args ++ ")"

/-- A call of a user-defined function. -/
def userCall (functions : List FunctionSignature) (place : FormPlace) (name args : String) :
    Checked String := do
  match findFunction? functions name with
  | none => Checked.report place (.undefinedFunction name)
  | some f =>
    let found := argumentsIn args
    Checked.require (found == f.parameters) place (.argumentCount name f.parameters found)
  return userMarkerText ++ name ++ "(" ++ args ++ ")"

/-- The text of an operand that is no call, for its type. The position counts for variables
and arrays only. -/
def typedOperand (place : FormPlace) (operand : String) (position : Option String) :
    OperandType → Checked String
  | .number => do
    Checked.require (isNumberText operand) place (.number operand)
    return operand
  | .string => return stringLiteral operand
  | .boolean =>
    if isTruthWord operand then return lowerAscii operand
    else do
      Checked.report place (.truthValue operand)
      return operand
  | .variable | .array => do
    checkName place operand
    match position with
    | none => return operand
    | some position =>
      Checked.require (isPositionText position) place (.position position)
      return operand ++ "[" ++ trim (foldGlyphsText position) ++ "]"

namespace Form

variable (form : Form) (functions : List FunctionSignature)

/-- The text of an operand that is there, for a type that is known. -/
def operandOfType (side : Side) (i : Nat) (operand : String) (type : OperandType) :
    Checked String :=
  let place := FormPlace.operand side i
  match form.operandField? side .function i with
  | some function =>
    match Builtin.ofName? function with
    | some builtin =>
      builtinCall place builtin operand
        ((form.operandField? side .argumentCount i).bind readCount?)
    | none => userCall functions place function operand
  | none =>
    match checkReserved operand (type == .boolean) with
    | .error e => do
      Checked.report place (.expression e)
      return operand
    | .ok () => typedOperand place operand (form.operandField? side .position i) type

/-- The text of an operand. -/
def operandText (side : Side) (i : Nat) : Checked String :=
  let place := FormPlace.operand side i
  match form.operand? side i with
  | none => Checked.given none place
  | some operand =>
    match form.operandField? side .type i with
    | none => form.operandOfType functions side i operand (.infer operand)
    | some declared =>
      match OperandType.ofName? declared with
      | some type => form.operandOfType functions side i operand type
      | none => do
        Checked.report place (.unknownType declared)
        return operand

/-- The operands of a side from the given one on, each with the operator before it. -/
def joinedFrom (side : Side) (i : Nat) : Nat → Checked String
  | 0 => return ""
  | count + 1 => do
    let op ← checkOperator (.operand side i) (form.operandField? side .operator i)
    let operand ← form.operandText functions side (i + 1)
    let rest ← joinedFrom side (i + 1) count
    return " " ++ op ++ " " ++ operand ++ rest

/-- All operands of a side, joined by their operators. There has to be one. -/
def sideText (side : Side) : Checked String := do
  match form.operandCount side with
  | 0 => Checked.given none (.operand side 0)
  | count + 1 =>
    let first ← form.operandText functions side 0
    let rest ← form.joinedFrom functions side 0 count
    return first ++ rest

end Form

end BlockCode
