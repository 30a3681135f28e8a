/- # Blocks

A program is a block: a list of statements, each with the block of the statements nested
under it. The type is built from the first statement, what is nested under it, and what
follows it, so that every function on programs recurses on the data itself.

Statements carry an identifier by which an editor refers to them. Identifiers should be
distinct, but nothing in the type says so; where an identifier is looked up, the functions
say which of several statements they mean.
-/

import BlockCode.Program.Kind

namespace BlockCode

/-- One line of a program. The slots hold text as it was entered, and what each slot means
depends on the kind. -/
structure Statement where
  id : String
  kind : StatementKind
  slots : List String
  /-- Whether an assignment declares a constant. -/
  isConstant : Bool := false
  /-- Whether an editor hides what is nested under the statement. -/
  collapsed : Bool := false
  deriving DecidableEq, Repr, Inhabited

/-- The text of a slot. A slot that is not there is empty. -/
def Statement.slot (s : Statement) (i : Nat) : String :=
  s.slots.getD i ""

/-- A list of statements with what is nested under each of them. -/
inductive Block where
  | nil
  | cons (head : Statement) (body : Block) (next : Block)
  deriving DecidableEq, Repr, Inhabited

/-- A statement with what is nested under it. -/
structure Node where
  head : Statement
  body : Block
  deriving DecidableEq, Repr, Inhabited

namespace Block

/-- The statements of the block itself, each with what is nested under it. -/
def nodes : Block → List Node
  | .nil => []
  | .cons head body next => ⟨head, body⟩ :: next.nodes

/-- The block of the given nodes. -/
def ofNodes : List Node → Block
  | [] => .nil
  | node :: rest => .cons node.head node.body (ofNodes rest)

/-- All statements, each before those nested under it. -/
def statements : Block → List Statement
  | .nil => []
  | .cons head body next => head :: (body.statements ++ next.statements)

/-- The identifiers of all statements, in the same order. -/
def ids (block : Block) : List String :=
  block.statements.map Statement.id

/-- How many statements there are, nested ones included. -/
def size : Block → Nat
  | .nil => 0
  | .cons _ body next => 1 + body.size + next.size

/-- How many statements the block itself has. -/
def width : Block → Nat
  | .nil => 0
  | .cons _ _ next => 1 + next.width

/-- Whether there is no statement. -/
def isEmpty : Block → Bool
  | .nil => true
  | .cons .. => false

/-- The first node of the identifier, in the order of `statements`. -/
def find? (id : String) : Block → Option Node
  | .nil => none
  | .cons head body next =>
    if head.id == id then some ⟨head, body⟩
    else (body.find? id).or (next.find? id)

/-- How many statements without nested ones there are. -/
def leafCount : Block → Nat
  | .nil => 0
  | .cons _ body next => (if body.isEmpty then 1 else body.leafCount) + next.leafCount

/-- The block with every statement changed in place. -/
def map (f : Statement → Statement) : Block → Block
  | .nil => .nil
  | .cons head body next => .cons (f head) (body.map f) (next.map f)

end Block

namespace Node

/-- The node as a block of its own. -/
def toBlock (node : Node) : Block :=
  .cons node.head node.body .nil

/-- How many statements there are, the node's own included. -/
def size (node : Node) : Nat :=
  1 + node.body.size

/-- The identifiers of the node's own statement and of those nested under it. -/
def ids (node : Node) : List String :=
  node.toBlock.ids

end Node

end BlockCode
