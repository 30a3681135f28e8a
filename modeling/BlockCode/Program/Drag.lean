/- # Dragging

While a statement is dragged onto another, the editor shows where it would land. The outline
is reordered as if it were dropped; it may then be nested at most one level below the
statement before it, and must not be shallower than the statement behind it. Between these
bounds the sideways offset of the drag decides, counted in indentation units and rounded with
halves going up.

What is nested under the dragged statement, or under a collapsed one, is hidden during a drag.
-/

import BlockCode.Program.Edit
import BlockCode.Program.Rebuild

namespace BlockCode

/-- Where a dragged statement would land, and the bounds of its depth. -/
structure Projection where
  depth : Nat
  parent : Option String
  minDepth : Nat
  maxDepth : Nat
  deriving DecidableEq, Repr

/-- The number of indentation units in a sideways offset, to the nearest integer. A half goes
up. -/
def unitsIn (offset indent : Binary64) : Int :=
  ((offset.div indent).add .half).floorInt64

/-- The parent that a statement gets at the depth, when `before` are the items in front of it
with the nearest one first. -/
def parentAtDepth (before : Outline) (depth : Nat) : Option String :=
  if depth == 0 then none
  else
    match before with
    | [] => none
    | previous :: _ =>
      if depth == previous.depth then previous.parent
      else if depth > previous.depth then some previous.id
      else (before.find? fun item => item.depth == depth).bind OutlineItem.parent

namespace Outline

/-- Where the statement `active` would land if it were dropped on the place of `onto`, moved
sideways by a number of units. -/
def projectUnits (items : Outline) (active onto : String) (units : Int) :
    Except EditError Projection := do
  let some source := items.position? active | throw (.notFound active)
  let some target := items.position? onto | throw (.notFound onto)
  let reordered := items.reorder source target
  let before := (reordered.take target).reverse
  let maxDepth := (before.head?.map fun item => item.depth + 1).getD 0
  let minDepth := min ((reordered[target + 1]?.map OutlineItem.depth).getD 0) maxDepth
  let depth := (items[source]?.map OutlineItem.depth).getD 0
  match addInt64 depth units with
  | .error operation => throw (.overflow operation)
  | .ok desired =>
    let depth := (max (minDepth : Int) (min desired maxDepth)).toNat
    return ⟨depth, parentAtDepth before depth, minDepth, maxDepth⟩

/-- Where the statement would land for a sideways offset, given the width of one indentation
unit. -/
def project (items : Outline) (active onto : String) (offset indent : Binary64) :
    Except EditError Projection :=
  if indent.isPositive then items.projectUnits active onto (unitsIn offset indent)
  else .error (.invalidIndent indent)

end Outline

namespace Block

/-- What stays visible while the statement is dragged. -/
def visibleDuring (program : Block) (active : String) : Outline :=
  let items := program.outline
  let hidden := (items.filter fun item => item.statement.collapsed && item.id != active).map
    OutlineItem.id
  items.hideBelow (hidden ++ [active])

/-- Where the statement would land, seen on the visible part of the program. -/
def projectDrag (program : Block) (active onto : String) (offset indent : Binary64) :
    Except EditError Projection :=
  (program.visibleDuring active).project active onto offset indent

/-- Drops the statement on the place of another, with the depth and the parent of a
projection. -/
def applyProjection (program : Block) (active onto : String) (projection : Projection) :
    Except EditError Block := do
  let subtree ← program.subtreeIds active
  if projection.parent.any subtree.contains then throw (.cycle active)
  let items := program.outline
  let some source := items.position? active | throw (.notFound active)
  let some target := items.position? onto | throw (.notFound onto)
  if onto ≠ active && subtree.contains onto then throw (.cycle active)
  let placed := items.modify source fun item =>
    { item with depth := projection.depth, parent := projection.parent }
  return (Outline.reorder placed source target).rebuild.program

end Block

end BlockCode
