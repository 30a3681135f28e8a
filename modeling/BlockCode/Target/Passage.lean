/- # Passages

A program is rendered statement by statement. Each statement gives a passage: its lines,
placed at their depth, and the expressions it was made from. What is nested under a statement
follows it one level further in, except that a region only marks its statements and leaves
them where they are.

Among the statements of one block, a line that opens is remembered until a line closes, so
that the closing line can be read with its opener.
-/

import BlockCode.Target.JavaScript
import BlockCode.Target.Python
import BlockCode.Target.Ruby
import BlockCode.Target.Vba

namespace BlockCode

/-- The lines that came from one statement. -/
structure Passage where
  exprs : List Expr
  lines : List CodeLine
  deriving Repr, Inhabited

namespace Passage

/-- A passage of lines that came from no statement. -/
def ofLines (lines : List CodeLine) : Passage :=
  ⟨[], lines⟩

/-- Whether the passage has a line that is more than a comment. -/
def hasCode (passage : Passage) : Bool :=
  passage.lines.any CodeLine.isCode

end Passage

namespace Target

/-- The lines of an action in a target. -/
def lines (target : Target) (spellings? : Option Spellings) (action : Action) :
    Except Overflow (List CodeLine) :=
  let printer := target.printer spellings?
  match target with
  | .javaScript => .ok (JavaScript.lines printer action)
  | .python => Python.lines printer action
  | .vba => Vba.lines printer action
  | .ruby => Ruby.lines printer action

/-- The line that a body of the kind needs if it has no other. -/
def emptyBody? (target : Target) (kind : StatementKind) : Option CodeLine :=
  match target with
  | .python => Python.emptyBody? kind
  | _ => none

/-- The passage that makes up for a body without code, if the target needs one. -/
def filler (target : Target) (kind : StatementKind) (depth : Nat) (body : List Passage) :
    List Passage :=
  if body.any Passage.hasCode then []
  else ((target.emptyBody? kind).map fun line => .ofLines [line.indent depth]).toList

end Target

/-- Where statements stand: how far in, and in which kind of loop. -/
structure Place where
  depth : Nat := 0
  loop? : Option StatementKind := none
  deriving DecidableEq, Repr, Inhabited

/-- The place of what is nested under a statement of the kind. -/
def Place.inside (place : Place) (kind : StatementKind) : Place :=
  { depth := if kind == .region then place.depth else place.depth + 1
    loop? := if kind.isLoop then some kind else place.loop? }

namespace Statement

/-- The line that the statement closes the block of, when `openers` are the open lines of its
block with the innermost first. -/
def opener? (s : Statement) (openers : List Statement) : Option Statement :=
  if s.kind.closesBlock then openers.head? else none

/-- The open lines of the block behind the statement. -/
def openersBehind (s : Statement) (openers : List Statement) : List Statement :=
  let openers := if s.kind.closesBlock then openers.tail else openers
  if s.kind.opensBlock then s :: openers else openers

/-- The passage of the statement itself. -/
def passage (s : Statement) (target : Target) (spellings? : Option Spellings) (place : Place)
    (openers : List Statement) : Except RenderError Passage := do
  let action ← s.action target place.loop? (s.opener? openers)
  let lines ← (target.lines spellings? action).mapError .overflow
  return ⟨action.exprs, lines.map (.indent place.depth)⟩

end Statement

namespace Block

/-- The passages of a block at a place, with what is nested under its statements. Statements
that own no lines are rendered without what is nested under them. -/
def passages (target : Target) (spellings? : Option Spellings) (place : Place)
    (openers : List Statement) : Block → Except RenderError (List Passage)
  | .nil => return []
  | .cons head body next => do
    let own ← head.passage target spellings? place openers
    let nested ←
      if head.kind.isScoping then do
        let inside := place.inside head.kind
        let nested ← body.passages target spellings? inside []
        pure (nested ++ target.filler head.kind inside.depth nested)
      else pure []
    let rest ← next.passages target spellings? place (head.openersBehind openers)
    return own :: nested ++ rest

/-- The functions that a program defines and what remains without them, each in its order. A
function reaches from its header to the next line that ends one. -/
def splitFunctions (inFunction : Bool) : Block → Block × Block
  | .nil => (.nil, .nil)
  | .cons head body next =>
    if head.kind = .defineFunction ∨ (head.kind = .endFunction ∧ inFunction) then
      let (functions, main) := next.splitFunctions (head.kind = .defineFunction)
      (.cons head body functions, main)
    else
      let (functions, main) := next.splitFunctions inFunction
      (functions, .cons head body main)

/-- The passages of a program for a target that knows statements only inside procedures:
functions first, and everything else in one procedure. -/
def procedurePassages (program : Block) (target : Target) (options : RenderOptions)
    (spellings? : Option Spellings) : Except RenderError (List Passage) := do
  let (functions, main) := program.splitFunctions false
  let functionPassages ← functions.passages target spellings? {} []
  let gap := if functions.isEmpty then [] else [Passage.ofLines [{ text := "" }]]
  let mainPassages ← main.passages target spellings? { depth := 1 } []
  return functionPassages ++ gap ++ [.ofLines [Vba.entryLine options.entryPoint]] ++ mainPassages
    ++ [.ofLines [Vba.exitLine]]

/-- The passages of a program that draws random numbers start with what gives access to
them. -/
def importingPassages (program : Block) (target : Target) (spellings? : Option Spellings) :
    Except RenderError (List Passage) := do
  let body ← program.passages target spellings? {} []
  if body.any fun passage => passage.exprs.any (Expr.callsBuiltin .random) then
    return .ofLines Python.randomImport :: body
  else return body

/-- The passages of a whole program. -/
def document (program : Block) (target : Target) (options : RenderOptions)
    (spellings? : Option Spellings) : Except RenderError (List Passage) :=
  match target with
  | .javaScript | .ruby => program.passages target spellings? {} []
  | .python => program.importingPassages target spellings?
  | .vba => program.procedurePassages target options spellings?

/-- The lines of a whole program. -/
def codeLines (program : Block) (target : Target) (options : RenderOptions)
    (spellings? : Option Spellings) : Except RenderError (List CodeLine) :=
  (program.document target options spellings?).map fun passages => passages.flatMap Passage.lines

/-- The code of a program, which is not checked before. -/
def generate (program : Block) (target : Target) (options : RenderOptions)
    (spellings? : Option Spellings) : Except RenderError String :=
  (program.codeLines target options spellings?).map fun lines =>
    String.join (lines.map (CodeLine.layout options.indentWidth))

end Block

end BlockCode
