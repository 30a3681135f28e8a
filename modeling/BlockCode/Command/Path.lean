/- # Paths

A path is read from left to right. It starts where the command runs, or at the root of the
system, and goes down by a name or up by two dots. Nothing between two slashes and a single
dot stand still, so different paths may lead to one place.
-/

import BlockCode.Text.Basic

namespace BlockCode

/-- A place in the system, by the way to it. The way goes up first and then down, so no two
ways lead to one place as long as the directories above have no name. -/
structure FilePlace where
  /-- Whether the way starts at the root, and not where the command runs. -/
  rooted : Bool := false
  /-- How many directories the way goes up. From the root it cannot go up. -/
  up : Nat := 0
  /-- The names on the way down, the last of them first. -/
  names : List String := []
  deriving DecidableEq, Repr, Inhabited

namespace FilePlace

/-- The directory around a place. The root is its own. -/
def parent (place : FilePlace) : FilePlace :=
  match place.names with
  | _ :: names => { place with names }
  | [] => if place.rooted then place else { place with up := place.up + 1 }

/-- The place of a name in a directory. -/
def child (place : FilePlace) (name : String) : FilePlace :=
  { place with names := name :: place.names }

end FilePlace

/-- The pieces of a path between its slashes, as far as something is written there. -/
def pathPieces (path : String) : List String :=
  (stringPiecesAt '/' path).filter (!·.isEmpty)

/-- Whether a path starts at the root. -/
def isRootedPath (path : String) : Bool :=
  path.toList.head? == some '/'

/-- Whether a path ends with a slash, behind which only a directory may stand. -/
def endsWithSlash (path : String) : Bool :=
  path.toList.getLast? == some '/'

/-- How many bytes a path may have. -/
def pathLimit : Nat := 4095

/-- How many bytes a name in a directory may have. -/
def nameLimit : Nat := 255

/-- The stem of a file name: all before its last dot. A name that only starts with a dot has
no other stem than itself. -/
def fileStem (name : List Char) : List Char :=
  match (name.reverse.dropWhile (· != '.')).tail.reverse with
  | [] => name
  | stem => stem

/-- The path with the extension of its file replaced, or put there if it has none. A path
that names no file stays as it is. -/
def withExtension (path extension : String) : String :=
  let pieces := (piecesAt '/' path.toList).reverse.dropWhile fun piece =>
    piece.isEmpty || piece == ['.']
  match pieces with
  | [] => path
  | name :: parents =>
    if name == ['.', '.'] then path
    else
      let file := fileStem name ++ '.' :: extension.toList
      String.ofList (['/'].intercalate (parents.reverse ++ [file]))

end BlockCode
