/- # Errors of edits

Why an edit of a program, or the projection of a drag, is refused. The program is then as it
was before.
-/

import BlockCode.Number.Overflow
import BlockCode.Number.Shortest

namespace BlockCode

/-- Why an edit is refused. -/
inductive EditError where
  | notFound (id : String)
  | duplicateId (id : String)
  /-- The statement would be nested under itself. -/
  | cycle (id : String)
  /-- The depth asked for is not the one that the parent gives. -/
  | depthMismatch (requested : Nat) (parentDepth : Option Nat)
  | indexOutOfRange (index : Nat) (width : Nat)
  | invalidIndent (indent : Binary64)
  | overflow (operation : Overflow)
  deriving DecidableEq, Repr

/-- The wording of the error. -/
def EditError.message : EditError → String
  | .notFound id => "no statement with id `" ++ id ++ "`"
  | .duplicateId id => "statement id `" ++ id ++ "` is already in use"
  | .cycle id => "cannot move `" ++ id ++ "` under its own subtree"
  | .depthMismatch requested parentDepth =>
    "depth " ++ toString requested ++ " does not fit under a parent at depth "
      ++ (match parentDepth with
        | none => "None"
        | some depth => "Some(" ++ toString depth ++ ")")
  | .indexOutOfRange index width =>
    "sibling index " ++ toString index ++ " out of range (0..=" ++ toString width ++ ")"
  | .invalidIndent indent => "indentation unit must be positive, got " ++ indent.toText
  | .overflow operation => operation.message

end BlockCode
