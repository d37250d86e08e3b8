import Scim.CommandLine.Performance

/-!
# The program

Runs the command line with the files and the environment of the machine.
-/

namespace Scim.Main

/-- Why a file cannot be read. -/
def causeText (e : IO.Error) : String :=
  match e with
  | .noFileOrDirectory .. => "No such file or directory (os error 2)"
  | .permissionDenied .. => "Permission denied (os error 13)"
  | .inappropriateType .. => "Is a directory (os error 21)"
  | e => toString e

/-- The text of a file, or why it cannot be read. -/
def readText (path : String) : IO (Except String String) := do
  try
    let bytes ← IO.FS.readBinFile path
    match String.fromUTF8? bytes with
    | some text => pure (.ok text)
    | none => pure (.error "stream did not contain valid UTF-8")
  catch e => pure (.error (causeText e))

/-- The files and the environment of the machine. -/
def machine : Surroundings IO := ⟨readText, fun name => IO.getEnv name⟩

end Scim.Main

/-- Runs the program and ends with its exit code. -/
def main (arguments : List String) : IO UInt32 := do
  let outcome ← Scim.CommandLine.run Scim.Main.machine arguments
  IO.print outcome.output
  IO.eprint outcome.errors
  pure outcome.exitCode.toUInt32
