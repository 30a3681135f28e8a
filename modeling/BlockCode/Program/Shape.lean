/- # Shape

What a program does depends on its kinds, slots, constant marks and nesting, and not on
identifiers or on what an editor hides. Two programs that agree in the former have the same
shape. The shape is also written down as a sequence of bytes, by which a cache can know a
program again: counts come before what they count and every text ends in a byte that no text
contains, so no two shapes share a sequence.
-/

import BlockCode.Program.Block

namespace BlockCode

/-- The statement without its identifier and its editor mark. -/
def Statement.shape (s : Statement) : Statement :=
  { s with id := "", collapsed := false }

namespace Block

/-- The program without identifiers and editor marks. -/
def shape (block : Block) : Block :=
  block.map Statement.shape

/-- Whether two programs differ at most in identifiers and editor marks. -/
def sameShape (a b : Block) : Bool :=
  a.shape == b.shape

end Block

/-- A count in eight bytes, the lowest first. -/
def countBytes (n : Nat) : List UInt8 :=
  (List.range 8).map fun i => UInt8.ofNat (n >>> (8 * i))

/-- The bytes of a text and the byte that ends it. -/
def textBytes (text : String) : List UInt8 :=
  text.toUTF8.toList ++ [0xFF]

/-- The bytes of a statement: its kind, its slots and its constant mark. -/
def Statement.contentBytes (s : Statement) : List UInt8 :=
  countBytes (StatementKind.all.idxOf s.kind) ++ countBytes s.slots.length
    ++ s.slots.flatMap textBytes ++ [if s.isConstant then 1 else 0]

namespace Block

/-- The bytes of the statements, each followed by the number of statements of its body and
then by their bytes. -/
def nestedBytes : Block → List UInt8
  | .nil => []
  | .cons head body next =>
    head.contentBytes ++ countBytes body.width ++ body.nestedBytes ++ next.nestedBytes

/-- The bytes of a whole program, which start with the number of its own statements. -/
def contentBytes (block : Block) : List UInt8 :=
  countBytes block.width ++ block.nestedBytes

end Block

end BlockCode
