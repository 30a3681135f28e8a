/- # Saved programs

A program is saved as JSON: a list of nodes, each an object with an identifier, a kind, slots,
the marks that are set and the nodes nested under it. Reading is more liberal than writing. A
node may also be the list of its fields in order; fields with a default may be missing, and
members of other names are skipped with whatever they hold. A known field must not occur
twice. Lists and objects that are read as parts of nodes may be nested 127 deep.
-/

import BlockCode.Json.Reader
import BlockCode.Program.Block

namespace BlockCode

/-- The members of a saved statement, where `body` is the saved form of what is nested under
it. Marks that are not set and an empty body are left out. -/
def Statement.savedMembers (s : Statement) (body : List Json) : List (String × Json) :=
  [("id", Json.ofString s.id), ("kind", Json.ofString s.kind.key),
    ("tokens", Json.array (s.slots.map Json.ofString))]
    ++ (if s.isConstant then [("isConstant", Json.bool true)] else [])
    ++ (if s.collapsed then [("collapsed", Json.bool true)] else [])
    ++ (if body.isEmpty then [] else [("children", Json.array body)])

namespace Block

/-- The saved forms of the statements of a block. -/
def savedNodes : Block → List Json
  | .nil => []
  | .cons head body next =>
    .ofMembers (head.savedMembers body.savedNodes) :: next.savedNodes

/-- The saved form of a program. -/
def toJson (program : Block) : Json :=
  .array program.savedNodes

/-- The saved form as text. -/
def save (program : Block) : String :=
  program.toJson.layout

end Block

namespace Saved

/-- How deep lists and objects may be nested. -/
def maxNesting : Nat := 127

/-- A text. -/
def readText? : Json → Option String
  | .string text? => text?
  | _ => none

/-- A mark. -/
def readMark? : Json → Option Bool
  | .bool value => some value
  | _ => none

/-- The kind of a statement: its name, or an object whose only member is the name. -/
def readKind? (nesting : Nat) : Json → Option StatementKind
  | .string text? => text?.bind StatementKind.ofKey?
  | .object [(name?, .null)] => if nesting == 0 then none else name?.bind StatementKind.ofKey?
  | _ => none

/-- The slots of a statement. -/
def readSlots? (nesting : Nat) : Json → Option (List String)
  | .array items => if nesting == 0 then none else items.mapM readText?
  | _ => none

/-- The fields of a node, in their order. -/
def fieldNames : List String :=
  ["id", "kind", "tokens", "isConstant", "collapsed", "children"]

/-- The values of the fields in an object. Every name has to be a text, and no field may occur
twice. -/
def objectFields? (members : List (Option String × Json)) : Option (List (Option Json)) :=
  if members.any fun (name?, _) => name?.isNone then none
  else fieldNames.mapM fun field =>
    match members.filter fun (name?, _) => name? == some field with
    | [] => some none
    | [(_, value)] => some (some value)
    | _ => none

/-- The values of the fields in a list. There may be fewer values than fields, but not more. -/
def listFields? (values : List Json) : Option (List (Option Json)) :=
  if values.length > fieldNames.length then none
  else some (values.map some ++ List.replicate (fieldNames.length - values.length) none)

/-- The fields of a node in either form. -/
def nodeFields? : Json → Option (List (Option Json))
  | .object members => objectFields? members
  | .array values => listFields? values
  | _ => none

/-- A field that has a value when it is missing. -/
def readOr (absent : α) (read? : Json → Option α) : Option Json → Option α
  | none => some absent
  | some value => read? value

/-- A list of nodes, of which this list and what it holds may be nested `nesting` deep. -/
def readBlock? : Nat → Json → Option Block
  | 0, _ | 1, .array (_ :: _) => none
  | _ + 1, .array [] => some .nil
  | nesting + 2, .array (value :: values) =>
    (value :: values).foldr
      (fun value rest? => do
        let rest ← rest?
        let fields ← nodeFields? value
        let [some id, some kind, slots, isConstant, collapsed, body] := fields | none
        let head : Statement :=
          { id := ← readText? id
            kind := ← readKind? nesting kind
            slots := ← readOr [] (readSlots? nesting) slots
            isConstant := ← readOr false readMark? isConstant
            collapsed := ← readOr false readMark? collapsed }
        return .cons head (← readOr .nil (readBlock? nesting) body) rest)
      (some .nil)
  | _ + 1, _ => none

end Saved

namespace Block

/-- The program of a saved form. -/
def ofJson? (value : Json) : Option Block :=
  Saved.readBlock? Saved.maxNesting value

/-- Reads the text of a saved program. -/
def load? (text : String) : Option Block :=
  (Json.read? text).bind ofJson?

end Block

end BlockCode
