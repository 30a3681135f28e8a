/- # Running the command

The command reads a saved program and checks it. It then shows its outline, says that it is in
order, or renders it to one target or to all of them. Code is written to files if a file is
named, and is shown otherwise. Whatever fails first ends the run.
-/

import BlockCode.Command.Arguments
import BlockCode.Command.Files
import BlockCode.Program.Saved
import BlockCode.Target.Render
import BlockCode.Text.Listing

namespace BlockCode

/-- Why the command fails. -/
inductive CommandError where
  | usage
  | unreadable (path : String) (reason : String)
  | noProgram (path : String)
  | invalid (path : String) (findings : List Finding)
  | render (error : RenderError)
  | unwritable (reason : String)
  deriving DecidableEq, Repr

/-- The lines that say how the command is called. -/
def usageLines : List String :=
  ["Usage: blockcode [OPTIONS] <FILE>", "", "Options:",
    "  -t, --target <TARGET>     javascript, python, vba or ruby",
    "      --all                 Render every target",
    "  -o, --output <FILE>       Output file, or the stem of one file per target",
    "      --check               Only validate the program",
    "      --flatten             Print the outline of the program",
    "      --indent <N>          Blanks per indentation level",
    "      --entry-point <NAME>  Name of the procedure around the statements in VBA",
    "  -v, --verbose             Verbose output",
    "  -h, --help                Print help",
    "  -V, --version             Print version"]

/-- How the command is called. -/
def usageText : String :=
  String.join (usageLines.map fun line => line ++ "\n")

/-- The version of the command. -/
def versionText : String :=
  "blockcode 0.1.0\n"

namespace CommandError

/-- What the command writes as the reason of its failure. -/
def message : CommandError → String
  | .usage => usageText
  | .unreadable path reason => "Error reading '" ++ path ++ "': " ++ reason ++ "\n"
  | .noProgram path => "Error parsing '" ++ path ++ "': not a saved program\n"
  | .invalid path findings =>
    String.join (findings.map fun finding => path ++ ": " ++ finding.message ++ "\n")
  | .render error => "Error: " ++ error.message ++ "\n"
  | .unwritable reason => "Error: " ++ reason ++ "\n"

/-- The status with which the command ends. -/
def status : CommandError → Nat
  | .usage => 2
  | .render (.overflow _) => 101
  | _ => 1

end CommandError

/-- The text flushed to the right in the given width. -/
def padLeft (width : Nat) (text : String) : String :=
  String.ofList (List.replicate (width - text.length) ' ') ++ text

/-- A line of an outline, with its number. -/
def OutlineItem.listing (number : Nat) (item : OutlineItem) : String :=
  padLeft 4 (toString number) ++ " " ++ String.ofList (List.replicate (2 * item.depth) ' ')
    ++ item.statement.kind.label ++ " " ++ listedTexts item.statement.slots ++ "\n"

/-- An outline with numbered lines. -/
def Outline.listing (items : Outline) : String :=
  String.join (items.mapIdx fun i item => item.listing (i + 1))

/-- The code of a program in one target. -/
def renderOne (program : Block) (target : Target) (options : RenderOptions) :
    Except RenderError String := do
  let spellings ←
    if target.needsAsciiNames then
      (SpellingSession.spellingsFor {} codePointSpeller program).1
    else pure []
  program.renderWith target options (some spellings)

/-- The code of a program in the target that is asked for, or in all of them. -/
def renderRequested (program : Block) (arguments : Arguments) :
    Except RenderError (List (Target × String)) :=
  match arguments.target? with
  | some target =>
    (renderOne program target arguments.options).map fun code => [(target, code)]
  | none => (SpellingSession.renderAll {} codePointSpeller program arguments.options).1

/-- Where the code of a target is written. -/
def outputPath (arguments : Arguments) (path : String) (target : Target) : String :=
  if arguments.target?.isSome then path else withExtension path target.extension

/-- Code as it is shown. Several targets are shown each under its name. -/
def shownCode (arguments : Arguments) (outputs : List (Target × String)) : String :=
  if arguments.target?.isSome then String.join (outputs.map Prod.snd)
  else String.join (outputs.map fun (target, code) =>
    "==> " ++ target.name ++ " <==\n" ++ code ++ "\n")

section Run

variable {m : Type → Type} [Monad m] (access : FileAccess m)

/-- Writes the code of each target, until one cannot be written. -/
def writeCode (arguments : Arguments) (path : String) :
    List (Target × String) → m (Except CommandError String)
  | [] => return .ok ""
  | (target, code) :: rest => do
    match ← access.write (outputPath arguments path target) code with
    | .error reason => return .error (.unwritable reason)
    | .ok () => writeCode arguments path rest

/-- What is done with a program that was read. The result is what the command shows. -/
def runProgram (arguments : Arguments) (program : Block) : m (Except CommandError String) := do
  if arguments.flatten then return .ok program.outline.listing
  match program.validate with
  | [] =>
    if arguments.check then return .ok (arguments.file ++ ": OK\n")
    match renderRequested program arguments with
    | .error e => return .error (.render e)
    | .ok outputs =>
      match arguments.output? with
      | none => return .ok (shownCode arguments outputs)
      | some path => writeCode access arguments path outputs
  | findings => return .error (.invalid arguments.file findings)

/-- Runs the command with its arguments. The result is what it shows, or why it fails. -/
def runCommand (arguments : List String) : m (Except CommandError String) := do
  match Request.ofArguments? arguments with
  | none => return .error .usage
  | some .help => return .ok usageText
  | some .version => return .ok versionText
  | some (.render arguments) =>
    match ← access.read arguments.file with
    | .error reason => return .error (.unreadable arguments.file reason)
    | .ok text =>
      match Block.load? text with
      | none => return .error (.noProgram arguments.file)
      | some program => runProgram access arguments program

end Run

end BlockCode
