/- # Lines of code

What a statement becomes in a target: a few lines, each with its depth of indentation. A line may
be no more than a comment.
-/

import BlockCode.Target.Basic

namespace BlockCode

/-- A line of code. -/
structure CodeLine where
  text : String
  depth : Nat := 0
  isComment : Bool := false
  deriving DecidableEq, Repr, Inhabited

namespace CodeLine

/-- Whether the line is more than a comment. -/
def isCode (line : CodeLine) : Bool :=
  !line.isComment

/-- The line so many levels further in. -/
def indent (levels : Nat) (line : CodeLine) : CodeLine :=
  { line with depth := levels + line.depth }

/-- The line as text. An empty line has no blanks. -/
def layout (width : Nat) (line : CodeLine) : String :=
  (if line.text.isEmpty then ""
    else String.ofList (List.replicate (line.depth * width) ' ') ++ line.text) ++ "\n"

/-- A comment at the start or the end of a region. -/
def comment (mark : String) (text : String) : CodeLine :=
  { text := mark ++ " " ++ text, isComment := true }

end CodeLine

end BlockCode
