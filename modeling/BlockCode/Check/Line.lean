/- # Lines in their surroundings

Most rules look at a line together with the lines around it. A line is therefore seen between
the lines before it and the lines behind it; its neighbours, what it is nested under and its
number all follow from these.
-/

import BlockCode.Check.Finding
import BlockCode.Program.Outline

namespace BlockCode

/-- A line of an outline between the lines before and behind it. -/
structure Line where
  before : Outline
  item : OutlineItem
  behind : Outline
  deriving Repr

namespace Line

/-- The statement on the line. -/
def statement (line : Line) : Statement :=
  line.item.statement

/-- The kind of the statement on the line. -/
def kind (line : Line) : StatementKind :=
  line.statement.kind

/-- All lines of the outline. -/
def all (line : Line) : Outline :=
  line.before ++ line.item :: line.behind

/-- The number of the line, counted from one. -/
def number (line : Line) : Nat :=
  line.before.length + 1

/-- The nearest line before that names the same parent. -/
def previousSibling? (line : Line) : Option OutlineItem :=
  line.before.reverse.find? fun other => other.parent == line.item.parent

/-- The nearest line behind that names the same parent. -/
def nextSibling? (line : Line) : Option OutlineItem :=
  line.behind.find? fun other => other.parent == line.item.parent

/-- Whether something is nested under the line: it would come directly behind. -/
def hasBody (line : Line) : Bool :=
  line.behind.head?.any fun next => next.parent == some line.item.id

/-- What an item is nested under, nearest first, going up at most `fuel` times. A parent name
means the first line of that identifier. -/
def enclosing (items : Outline) : Nat → OutlineItem → Outline
  | 0, _ => []
  | fuel + 1, item =>
    match item.parent.bind fun id => items.find? fun other => other.id == id with
    | none => []
    | some parent => parent :: enclosing items fuel parent

/-- What the line is nested under, nearest first. -/
def ancestors (line : Line) : Outline :=
  enclosing line.all line.all.length line.item

/-- A fault of the line as a finding. -/
def finding (line : Line) (fault : Fault) : Finding :=
  ⟨line.number, line.item.id, fault⟩

end Line

namespace Outline

/-- The lines of an outline of which `before` has been passed. -/
def linesFrom (before : Outline) : Outline → List Line
  | [] => []
  | item :: behind => ⟨before, item, behind⟩ :: linesFrom (before ++ [item]) behind

/-- The lines of an outline. -/
def lines (items : Outline) : List Line :=
  linesFrom [] items

end Outline

end BlockCode
