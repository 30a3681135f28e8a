/- # Errors of rendering

Why a program is not rendered: it has findings, it mentions names that the target cannot spell,
or a statement does not read. The last can happen only to a program that was not validated.
-/

import BlockCode.Check.Finding
import BlockCode.Names.Spelling
import BlockCode.Number.Overflow

namespace BlockCode

/-- Why a program is not rendered. -/
inductive RenderError where
  | invalidProgram (findings : List Finding)
  | expression (id : String) (kind : StatementKind) (error : ExprError)
  /-- A closing line stands where no block is open. -/
  | nothingToClose (id : String) (kind : StatementKind)
  | unspelledNames (names : List String)
  | spelling (error : SpellingError)
  | overflow (operation : Overflow)
  deriving DecidableEq, Repr

namespace RenderError

/-- The wording of the cause. -/
def detail : RenderError → String
  | .invalidProgram findings =>
    "program has " ++ toString findings.length ++ " validation error(s)"
  | .expression _ _ error => error.message
  | .nothingToClose _ kind => "internal error: `" ++ kind.label ++ "` without an opening line"
  | .unspelledNames names => "identifiers need transliteration: " ++ ", ".intercalate names
  | .spelling error => error.message
  | .overflow operation => operation.message

/-- What was being read. -/
def context? : RenderError → Option String
  | .expression _ kind _ => some ("in `" ++ kind.label ++ "`")
  | _ => none

/-- The identifier of the statement that was being rendered. -/
def node? : RenderError → Option String
  | .expression id _ _ | .nothingToClose id _ => some id
  | _ => none

/-- The wording of the error. -/
def message (e : RenderError) : String :=
  "code generation error: " ++ e.detail
    ++ (e.context?.map fun context => " (" ++ context ++ ")").getD ""
    ++ (e.node?.map fun id => " at node " ++ id).getD ""

end RenderError

end BlockCode
