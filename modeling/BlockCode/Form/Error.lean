/- # Errors of a form

What is wrong with a form, and where. A form that has errors gives no statement, and all of
them are reported together.
-/

import BlockCode.Expr.Error
import BlockCode.Form.Basic

namespace BlockCode

/-- Where in a form something is wrong. -/
inductive FormPlace where
  | operand (side : Side) (index : Nat)
  | field (field : StatementField)
  | statement
  deriving DecidableEq, Repr

/-- How messages speak of the place. Operands are counted from one. -/
def FormPlace.label : FormPlace → String
  | .operand side index => side.label ++ " operand " ++ toString (index + 1)
  | .field f => f.phrase
  | .statement => "statement"

/-- What is wrong with a part of a form. -/
inductive FormProblem where
  | missing
  | variableName (text : String)
  | number (text : String)
  | position (text : String)
  | constantName (text : String)
  | truthValue (text : String)
  | unknownType (text : String)
  | unknownOperator (text : String)
  | undefinedFunction (name : String)
  | argumentCount (name : String) (expected : Nat) (found : Nat)
  | expression (error : ExprError)
  deriving DecidableEq, Repr

/-- The wording of the problem. -/
def FormProblem.message : FormProblem → String
  | .missing => "a value is required"
  | .variableName text => "`" ++ text ++ "` is not a valid variable name"
  | .number text => "`" ++ text ++ "` is not a number"
  | .position text => "`" ++ text ++ "` is not a valid array index"
  | .constantName text => "constant `" ++ text ++ "` must start with an uppercase letter"
  | .truthValue text => "`" ++ text ++ "` must be true or false"
  | .unknownType text => "unknown operand type `" ++ text ++ "`"
  | .unknownOperator text => "`" ++ text ++ "` is not an operator"
  | .undefinedFunction name => "function `" ++ name ++ "` is not defined"
  | .argumentCount name expected found =>
    "`" ++ name ++ "` takes " ++ toString expected ++ " argument(s), found " ++ toString found
  | .expression error => error.message

/-- A problem and its place. -/
structure FormError where
  place : FormPlace
  problem : FormProblem
  deriving DecidableEq, Repr

/-- The wording of the error. -/
def FormError.message (e : FormError) : String :=
  e.place.label ++ ": " ++ e.problem.message

/-- A value made from a form, together with everything that was wrong on the way. The value
is worth something only if nothing was. -/
structure Checked (α : Type) where
  value : α
  errors : List FormError := []
  deriving Repr

namespace Checked

instance : Monad Checked where
  pure value := ⟨value, []⟩
  bind x f := { value := (f x.value).value, errors := x.errors ++ (f x.value).errors }

/-- Reports a problem. -/
def report (place : FormPlace) (problem : FormProblem) : Checked Unit :=
  ⟨(), [⟨place, problem⟩]⟩

/-- Reports the problem if the condition does not hold. -/
def require (condition : Bool) (place : FormPlace) (problem : FormProblem) : Checked Unit :=
  if condition then pure () else report place problem

/-- The text, which has to be there. A missing text is reported and stands as empty. -/
def given (text? : Option String) (place : FormPlace) : Checked String :=
  match text? with
  | some text => pure text
  | none => do
    report place .missing
    return ""

end Checked

end BlockCode
