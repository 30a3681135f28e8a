/- # Edits

Insertion, removal and moving of statements with what is nested under them, and the update of
one mark. An edit gives a new program or says why it does not apply.
-/

import BlockCode.Program.Error
import BlockCode.Program.Outline

namespace BlockCode

namespace Block

/-- The block with a node put in front of the statement at the index. -/
def insertAt (node : Node) : Nat → Block → Block
  | 0, block => .cons node.head node.body block
  | _ + 1, .nil => .cons node.head node.body .nil
  | index + 1, .cons head body next => .cons head body (insertAt node index next)

/-- The program with the first node of the identifier replaced, in the order of `statements`.
A program without such a node stays as it is. -/
def updateFirst (id : String) (f : Node → Node) : Block → Block
  | .nil => .nil
  | .cons head body next =>
    if head.id == id then
      let node := f ⟨head, body⟩
      .cons node.head node.body next
    else if (body.find? id).isSome then .cons head (body.updateFirst id f) next
    else .cons head body (next.updateFirst id f)

/-- Takes the first statement of the identifier out of the block itself. -/
def removeSibling? (id : String) : Block → Option (Node × Block)
  | .nil => none
  | .cons head body next =>
    if head.id == id then some (⟨head, body⟩, next)
    else (next.removeSibling? id).map fun (node, rest) => (node, .cons head body rest)

/-- Takes a node of the identifier out of the program. The statements of a block are all looked
at before anything nested under them. -/
def detach? (id : String) : Block → Option (Node × Block)
  | .nil => none
  | .cons head body next =>
    match (Block.cons head body next).removeSibling? id with
    | some found => some found
    | none =>
      match body.detach? id with
      | some (node, rest) => some (node, .cons head rest next)
      | none => (next.detach? id).map fun (node, rest) => (node, .cons head body rest)

/-- The first node of the identifier, or the error that there is none. -/
def get (program : Block) (id : String) : Except EditError Node :=
  match program.find? id with
  | some node => .ok node
  | none => .error (.notFound id)

/-- The depth of the first statement of the identifier. -/
def depthOf (program : Block) (id : String) : Except EditError Nat :=
  match program.outline.find? fun item => item.id == id with
  | some item => .ok item.depth
  | none => .error (.notFound id)

/-- The identifiers of the statement and of all that is nested under it. -/
def subtreeIds (program : Block) (id : String) : Except EditError (List String) :=
  (program.get id).map Node.ids

/-- The identifiers of all that is nested under the statement. -/
def nestedIds (program : Block) (id : String) : Except EditError (List String) :=
  (program.get id).map fun node => node.body.ids

/-- The number of statements without nested ones below the statement. -/
def leavesBelow (program : Block) (id : String) : Except EditError Nat :=
  (program.get id).map fun node => node.body.leafCount

/-- Puts a node in front of the statement at the index, among the statements nested under the
parent or, without a parent, among the roots. No identifier of the node may be in use. -/
def insert (program : Block) (parent : Option String) (index : Nat) (node : Node) :
    Except EditError Block := do
  match node.ids.find? fun id => (program.find? id).isSome with
  | some id => throw (.duplicateId id)
  | none =>
    match parent with
    | none =>
      if index > program.width then throw (.indexOutOfRange index program.width)
      return program.insertAt node index
    | some id =>
      let width := (← program.get id).body.width
      if index > width then throw (.indexOutOfRange index width)
      return program.updateFirst id fun found =>
        { found with body := found.body.insertAt node index }

/-- Takes a statement and all that is nested under it out of the program. -/
def remove (program : Block) (id : String) : Except EditError Block :=
  match program.detach? id with
  | some (_, rest) => .ok rest
  | none => .error (.notFound id)

/-- Moves a statement, with all that is nested under it, to an index under a new parent. The
depth has to be the one that the parent gives, and the index counts after the statement was
taken out. -/
def move (program : Block) (id : String) (depth : Nat) (parent : Option String) (index : Nat) :
    Except EditError Block := do
  let _ ← program.get id
  let parentDepth ←
    match parent with
    | none => pure none
    | some p =>
      if (← program.subtreeIds id).contains p then throw (.cycle id)
      pure (some (← program.depthOf p))
  if depth ≠ parentDepth.elim 0 (· + 1) then throw (.depthMismatch depth parentDepth)
  match program.detach? id with
  | none => throw (.notFound id)
  | some (node, rest) => rest.insert parent index node

end Block

/-- The marks that can be updated. -/
inductive Mark where
  | collapsed
  | constant
  deriving DecidableEq, Repr

/-- The statement with a mark updated. -/
def Statement.updateMark (s : Statement) (mark : Mark) (f : Bool → Bool) : Statement :=
  match mark with
  | .collapsed => { s with collapsed := f s.collapsed }
  | .constant => { s with isConstant := f s.isConstant }

/-- The program with one mark of the first statement of the identifier updated. -/
def Block.updateMark (program : Block) (id : String) (mark : Mark) (f : Bool → Bool) :
    Except EditError Block := do
  let _ ← program.get id
  return program.updateFirst id fun node => { node with head := node.head.updateMark mark f }

end BlockCode
