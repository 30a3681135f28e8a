/- # Findings

What a check can find wrong with one line of a program. A finding names the line, counted from
one in the outline, and the statement on it. Any finding keeps the program from being
rendered.
-/

import BlockCode.Expr.Error
import BlockCode.Program.Block

namespace BlockCode

namespace StatementKind

/-- The kinds of which one must follow among the statements of the same list, for a kind that
leaves its block open. -/
def successors? : StatementKind → Option (List StatementKind)
  | .ifThen | .elseIf => some [.elseIf, .otherwise, .endIf]
  | .otherwise => some [.endIf]
  | .whileLoop => some [.endWhile]
  | .doWhile => some [.endDoWhile]
  | .forIncrement | .forDecrement => some [.endFor]
  | .defineFunction => some [.endFunction]
  | .region => some [.endRegion]
  | _ => none

/-- The kinds of which one must stand directly before, among the statements of the same list,
for a kind that goes on with a block or closes it. -/
def predecessors? : StatementKind → Option (List StatementKind)
  | .elseIf | .otherwise => some [.ifThen, .elseIf]
  | .endIf => some [.ifThen, .elseIf, .otherwise]
  | .endWhile => some [.whileLoop]
  | .endDoWhile => some [.doWhile]
  | .endFor => some [.forIncrement, .forDecrement]
  | .endFunction => some [.defineFunction]
  | .endRegion => some [.region]
  | _ => none

/-- The labels of several kinds as a choice: `A`, `A or B`, `A, B or C`. -/
def choiceLabel : List StatementKind → String
  | [] => ""
  | [a] => a.label
  | [a, b] => a.label ++ " or " ++ b.label
  | a :: rest => a.label ++ ", " ++ choiceLabel rest

end StatementKind

/-- What is wrong with a line. -/
inductive Fault where
  | duplicateId (id : String) (firstLine : Nat)
  | missingSuccessor (kind : StatementKind)
  | missingPredecessor (kind : StatementKind)
  | childrenNotAllowed
  | breakOutsideLoop
  | undefinedFunction (name : String)
  | argumentCount (name : String) (expected : Nat) (found : Nat)
  | duplicateFunction (name : String) (firstLine : Nat)
  | nestedFunction (name : String)
  | constantReassigned (name : String)
  | slotCount (kind : StatementKind) (expected : Nat) (found : Nat)
  | notAssignable (text : String)
  | expression (error : ExprError)
  deriving DecidableEq, Repr

/-- The wording of the fault. -/
def Fault.message : Fault → String
  | .duplicateId id line =>
    "statement id `" ++ id ++ "` is already used on line " ++ toString line
  | .missingSuccessor kind =>
    "`" ++ kind.label ++ "` must be followed by "
      ++ StatementKind.choiceLabel (kind.successors?.getD [])
  | .missingPredecessor kind =>
    "`" ++ kind.label ++ "` must come after "
      ++ StatementKind.choiceLabel (kind.predecessors?.getD [])
  | .childrenNotAllowed => "this line cannot have a process attached under it"
  | .breakOutsideLoop => "`Break` must be inside a loop"
  | .undefinedFunction name => "function `" ++ name ++ "` is not defined"
  | .argumentCount name expected found =>
    "function `" ++ name ++ "` called with " ++ toString found ++ " argument(s), expected "
      ++ toString expected
  | .duplicateFunction name line =>
    "function `" ++ name ++ "` already defined on line " ++ toString line
  | .nestedFunction name => "function `" ++ name ++ "` must be defined at the top level"
  | .constantReassigned name => "cannot reassign a constant `" ++ name ++ "`"
  | .slotCount kind expected found =>
    "`" ++ kind.label ++ "` expects " ++ toString expected ++ " operand(s), found "
      ++ toString found
  | .notAssignable text => "`" ++ text ++ "` cannot be assigned to"
  | .expression error => error.message

/-- A fault of the statement on a line. -/
structure Finding where
  line : Nat
  id : String
  fault : Fault
  deriving DecidableEq, Repr

/-- The wording of a finding, with its line. -/
def Finding.message (f : Finding) : String :=
  "line " ++ toString f.line ++ ": " ++ f.fault.message

end BlockCode
