/- # Outlines

An outline is what an editor shows of a program: all its statements in one list, each before
those nested under it, with its parent, its depth and its place among its parent's
statements. Outlines that come back from an editor may be in disorder, so the functions on
them take any list.
-/

import BlockCode.Program.Block

namespace BlockCode

/-- A statement and where it stands. -/
structure OutlineItem where
  statement : Statement
  /-- The identifier of the statement it is nested under. -/
  parent : Option String
  depth : Nat
  /-- How many statements of the same parent stand before it. -/
  index : Nat
  deriving DecidableEq, Repr, Inhabited

/-- The identifier of the item's statement. -/
def OutlineItem.id (item : OutlineItem) : String :=
  item.statement.id

/-- A list of items, in the order in which an editor shows them. -/
abbrev Outline := List OutlineItem

namespace Block

/-- The outline of a block that stands under the parent at the depth, its first statement
having the given index. -/
def outlineFrom (parent : Option String) (depth index : Nat) : Block → Outline
  | .nil => []
  | .cons head body next =>
    ⟨head, parent, depth, index⟩
      :: (body.outlineFrom (some head.id) (depth + 1) 0
        ++ next.outlineFrom parent depth (index + 1))

/-- The outline of a program. -/
def outline (program : Block) : Outline :=
  program.outlineFrom none 0 0

end Block

namespace Outline

/-- The list without what is nested under the given statements, at any depth. An item goes if
its parent is among the hidden ones so far, and then hides what names it as parent later in
the list. -/
def hideBelow (hidden : List String) : Outline → Outline
  | [] => []
  | item :: rest =>
    if item.parent.any hidden.contains then hideBelow (item.id :: hidden) rest
    else item :: hideBelow hidden rest

/-- The position of the first item of the identifier. -/
def position? (items : Outline) (id : String) : Option Nat :=
  items.findIdx? fun item => item.id == id

/-- The list after the item at `source` was taken out and put in again at `target`. -/
def reorder (items : Outline) (source target : Nat) : Outline :=
  match items[source]? with
  | none => items
  | some item => (items.eraseIdx source).insertIdx target item

end Outline

end BlockCode
