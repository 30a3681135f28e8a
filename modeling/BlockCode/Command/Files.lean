/- # Files of the command

The command reads one file and may write some. It is written against these two operations, so
that it works on the files of a system and on files in memory alike. In memory every directory
is there from the start: writing makes files, and no directories.
-/

import BlockCode.Command.Path

namespace BlockCode

/-- The ways of reading and writing a file. A failure comes with the reason in words. -/
structure FileAccess (m : Type → Type) where
  read : String → m (Except String String)
  write : String → String → m (Except String Unit)

/-- Why a file is not read or written. -/
inductive FileError where
  | notFound
  | denied
  | notDirectory
  | isDirectory
  | nameTooLong
  deriving DecidableEq, Repr

namespace FileError

/-- The number by which the system tells an error. -/
def number : FileError → Nat
  | .notFound => 2
  | .denied => 13
  | .notDirectory => 20
  | .isDirectory => 21
  | .nameTooLong => 36

/-- What the system calls an error. -/
def words : FileError → String
  | .notFound => "No such file or directory"
  | .denied => "Permission denied"
  | .notDirectory => "Not a directory"
  | .isDirectory => "Is a directory"
  | .nameTooLong => "File name too long"

/-- The error with a number. -/
def ofNumber? (number : Nat) : Option FileError :=
  [notFound, denied, notDirectory, isDirectory, nameTooLong].find? (·.number == number)

/-- The reason in words. -/
def reason (error : FileError) : String :=
  error.words ++ " (os error " ++ toString error.number ++ ")"

end FileError

/-- Files in memory. The directory where the command runs, those around it and the root are
always there; `directories` are the others. -/
structure FileTree where
  directories : List FilePlace := []
  files : List (FilePlace × String) := []
  deriving DecidableEq, Repr, Inhabited

/-- What a path leads to, as far as its last piece is not looked up. -/
inductive Destination where
  /-- A directory that the path does not name. -/
  | directory
  /-- A name in a directory, and whether a slash stands behind it. -/
  | named (directory : FilePlace) (name : String) (slash : Bool)
  deriving DecidableEq, Repr, Inhabited

namespace FileTree

/-- The file that takes every text and stays empty. -/
def nullDevice : FilePlace :=
  { rooted := true, names := ["null", "dev"] }

/-- The directories under the root that every system has. -/
def systemDirectories : List String :=
  ["bin", "boot", "dev", "etc", "home", "lib", "media", "mnt", "opt", "proc", "root", "run", "sbin",
    "srv", "sys", "tmp", "usr", "var"]

/-- A system with the named files where the command runs. -/
def withWorkingFiles (files : List (String × String)) : FileTree where
  directories := systemDirectories.map fun name => { rooted := true, names := [name] }
  files := (nullDevice, "") :: files.map fun (name, text) => ({ names := [name] }, text)

/-- The files where the command runs, by their names. -/
def workingFiles (tree : FileTree) : List (String × String) :=
  tree.files.filterMap fun (place, text) =>
    match place with
    | { rooted := false, up := 0, names := [name] } => some (name, text)
    | _ => none

/-- Whether there is a directory at a place. -/
def hasDirectory (tree : FileTree) (place : FilePlace) : Bool :=
  place.names.isEmpty || tree.directories.contains place

/-- The text of the file that a name has in a directory. -/
def textAt (tree : FileTree) (directory : FilePlace) (name : String) : Except FileError String :=
  let place := directory.child name
  if nameLimit < name.utf8ByteSize then .error .nameTooLong
  else if tree.hasDirectory place then .error .isDirectory
  else match tree.files.lookup place with
    | some text => .ok text
    | none => .error .notFound

/-- The directory that a name has in another one. -/
def enter (tree : FileTree) (directory : FilePlace) (name : String) : Except FileError FilePlace :=
  match tree.textAt directory name with
  | .error .isDirectory => .ok (directory.child name)
  | .error e => .error e
  | .ok _ => .error .notDirectory

/-- The directory to which the pieces of a path lead. Going up from a file is no way out of
it, because every piece behind a name asks for a directory there. -/
def walk (tree : FileTree) (directory : FilePlace) : List String → Except FileError FilePlace
  | [] => .ok directory
  | "." :: rest => walk tree directory rest
  | ".." :: rest => walk tree directory.parent rest
  | name :: rest => do walk tree (← tree.enter directory name) rest

/-- What a path leads to. All but its last piece has to be there. -/
def destination (tree : FileTree) (path : String) : Except FileError Destination := do
  if path.isEmpty then throw .notFound
  if pathLimit < path.utf8ByteSize then throw .nameTooLong
  let start : FilePlace := { rooted := isRootedPath path }
  let pieces := pathPieces path
  match pieces.getLast? with
  | none => return .directory
  | some name =>
    if name == "." || name == ".." then
      let _ ← tree.walk start pieces
      return .directory
    else return .named (← tree.walk start pieces.dropLast) name (endsWithSlash path)

/-- The text of the file at a path. -/
def read (tree : FileTree) (path : String) : Except FileError String := do
  match ← tree.destination path with
  | .directory => throw .isDirectory
  | .named directory name slash =>
    let text ← tree.textAt directory name
    if slash then throw .notDirectory
    return text

/-- The files with the text at a path, in place of any before. A slash behind the name asks
for a directory, whatever is there. -/
def write (tree : FileTree) (path text : String) : Except FileError FileTree := do
  match ← tree.destination path with
  | .directory => throw .isDirectory
  | .named directory name slash =>
    if slash then throw .isDirectory
    let place := directory.child name
    match tree.textAt directory name with
    | .ok _ | .error .notFound =>
      if place == nullDevice then return tree
      else return { tree with
        files := tree.files.filter (fun file => file.1 != place) ++ [(place, text)] }
    | .error e => throw e

/-- Reading and writing files in memory. -/
def access : FileAccess (StateM FileTree) where
  read path := return ((← get).read path).mapError FileError.reason
  write path text := do
    match (← get).write path text with
    | .ok tree =>
      set tree
      return .ok ()
    | .error e => return .error e.reason

end FileTree

end BlockCode
