/- # The command

Runs the command on the files of the system.
-/

import BlockCode.Command.Run

namespace BlockCode

/-- The number of an error of the system. Some errors carry it with the opposite sign. -/
def systemNumber? : IO.Error → Option Nat
  | .noFileOrDirectory _ code _ | .permissionDenied _ code _ | .inappropriateType _ code _
  | .invalidArgument _ code _ => some (min code.toNat (UInt32.size - code.toNat))
  | _ => none

/-- Why the system refuses a file, in the words of the command. A text that is no UTF-8 is the
one refusal that has no number. -/
def systemReason (error : IO.Error) : String :=
  match (systemNumber? error).bind FileError.ofNumber?, error with
  | some reason, _ => reason.reason
  | none, .userError _ => "stream did not contain valid UTF-8"
  | none, _ => toString error

/-- Reading and writing the files of the system. -/
def systemAccess : FileAccess IO where
  read path := do
    try
      return .ok (← IO.FS.readFile path)
    catch e => return .error (systemReason e)
  write path text := do
    try
      IO.FS.writeFile path text
      return .ok ()
    catch e => return .error (systemReason e)

end BlockCode

/-- Shows what the command gives, or why it fails, and ends with its status. -/
def main (arguments : List String) : IO UInt32 := do
  match ← BlockCode.runCommand BlockCode.systemAccess arguments with
  | .ok shown =>
    IO.print shown
    return 0
  | .error e =>
    IO.eprint e.message
    return UInt32.ofNat e.status
