/- # Targets

The languages that a program is rendered to, and the settings of a rendering that all of them
share.
-/

namespace BlockCode

/-- A language that programs are rendered to. -/
inductive Target where
  | javaScript
  | python
  | vba
  | ruby
  deriving DecidableEq, Repr, Inhabited

namespace Target

/-- Every target, in the order in which they are listed. -/
def all : List Target :=
  [.javaScript, .python, .vba, .ruby]

/-- The name of the language. -/
def name : Target → String
  | .javaScript => "JavaScript"
  | .python => "Python"
  | .vba => "VBA"
  | .ruby => "Ruby"

/-- The extension of files in the language, without the dot. -/
def extension : Target → String
  | .javaScript => "js"
  | .python => "py"
  | .vba => "bas"
  | .ruby => "rb"

/-- The words by which a user names the target. -/
def words : Target → List String
  | .javaScript => ["javascript", "js"]
  | .python => ["python", "py"]
  | .vba => ["vba"]
  | .ruby => ["ruby", "rb"]

/-- The target that a user names. -/
def ofWord? (word : String) : Option Target :=
  all.find? fun target => target.words.contains word

/-- Whether names have to be spelled in ASCII. -/
def needsAsciiNames (target : Target) : Bool :=
  target == .vba

end Target

/-- The settings of a rendering. -/
structure RenderOptions where
  /-- How many blanks one level of indentation takes. -/
  indentWidth : Nat := 4
  /-- The name of the procedure around the statements that stand in no function, for a target
  that needs one. -/
  entryPoint : String := "Main"
  deriving DecidableEq, Repr, Inhabited

end BlockCode
