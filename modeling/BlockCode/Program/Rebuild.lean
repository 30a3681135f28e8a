/- # From an outline back to a program

Only the parents decide the shape; the order among statements of one parent is that of the
list. A list may be faulty, and still no statement is lost. An item whose parent is not in the
list, or is the item itself, becomes a root. Items whose parents run in a circle are out of
reach of every root; going through the list, each item that is still out of reach is cut off
from its parent and becomes a root too. All such items are reported.
-/

import BlockCode.Program.Outline

namespace BlockCode

namespace Outline

/-- The position of the last item of the identifier, which is the one a parent name means. -/
def lastPosition? (items : Outline) (id : String) : Option Nat :=
  (items.reverse.findIdx? fun item => item.id == id).map fun i => items.length - 1 - i

/-- The position of the parent of the item at a position. An item is not its own parent. -/
def parentPosition? (items : Outline) (i : Nat) : Option Nat := do
  let item ← items[i]?
  let p ← items.lastPosition? (← item.parent)
  if p == i then none else some p

/-- For each position the position of its parent, if it has one in the list. -/
def parentPositions (items : Outline) : List (Option Nat) :=
  (List.range items.length).map items.parentPosition?

end Outline

/-- The parent positions of a list decide its shape by themselves: entry `i` is the position
under which position `i` belongs, or nothing for a root. -/
abbrev ParentTable := List (Option Nat)

namespace ParentTable

/-- The parent of a position. -/
def parent? (table : ParentTable) (i : Nat) : Option Nat :=
  table.getD i none

/-- Whether going from parent to parent, at most `fuel` times, leads to a position that is a
root or is among those cut off. -/
def reachesRoot (table : ParentTable) (cut : List Nat) : Nat → Nat → Bool
  | 0, i => cut.contains i || (table.parent? i).isNone
  | fuel + 1, i =>
    cut.contains i ||
      match table.parent? i with
      | none => true
      | some p => table.reachesRoot cut fuel p

/-- The positions that have to be cut off from their parents, in list order. A position is
looked at when all before it have been decided. -/
def cuts (table : ParentTable) : List Nat :=
  (List.range table.length).foldl
    (fun cut i => if table.reachesRoot cut table.length i then cut else cut ++ [i]) []

/-- The positions without a parent in the list, in list order. -/
def roots (table : ParentTable) : List Nat :=
  (List.range table.length).filter fun i => (table.parent? i).isNone

/-- The positions that stay under the position `p`, in list order. -/
def children (table : ParentTable) (cut : List Nat) (p : Nat) : List Nat :=
  (List.range table.length).filter fun i => table.parent? i == some p && !cut.contains i

end ParentTable

namespace Outline

/-- The block of the statements at the positions, with what is nested under them to a depth
of at most `fuel`. -/
def assemble (items : Outline) (table : ParentTable) (cut : List Nat) : Nat → List Nat → Block
  | 0, _ => .nil
  | fuel + 1, positions =>
    positions.foldr
      (fun i rest =>
        match items[i]? with
        | none => rest
        | some item =>
          .cons item.statement (items.assemble table cut fuel (table.children cut i)) rest)
      .nil

end Outline

/-- The outcome of rebuilding: the program, and the identifiers of the items that became roots
although they name a parent. -/
structure Rebuilt where
  program : Block
  orphans : List String
  deriving DecidableEq, Repr

/-- Builds the program that the parents of the items describe. The roots of the list come
first and those cut out of circles after them. -/
def Outline.rebuild (items : Outline) : Rebuilt :=
  let table := items.parentPositions
  let cut := ParentTable.cuts table
  let roots := ParentTable.roots table
  let strays := roots.filter fun i => (items[i]?.bind OutlineItem.parent).isSome
  { program := items.assemble table cut items.length (roots ++ cut)
    orphans := (strays ++ cut).filterMap fun i => items[i]?.map OutlineItem.id }

end BlockCode
