import Scim.CommandLine.Help
import Scim.Json.Reader
import Scim.Json.Writer
import Scim.Settings.Files

/-!
# Performing commands

The program sets up a service, performs one command, and ends with an exit code, a text and a
second text for errors and log lines.

* 0: the command was performed, and the text is its result.
* 1: the input was rejected, and the text is the error response.
* 2: the command could not be performed, or the arguments make no sense.
-/

namespace Scim.CommandLine

/-- What the program ends with. -/
structure Outcome where
  /-- The exit code. -/
  exitCode : Nat
  /-- The text. -/
  output : String := ""
  /-- Errors and log lines. -/
  errors : String := ""
  deriving DecidableEq, Repr

/-- Why a command fails. -/
inductive Failure where
  /-- The input is not acceptable. -/
  | rejected (response : ErrorResponse)
  /-- The command cannot be performed. -/
  | impossible (message : String)

/-- The line for an error that is not the client's. -/
def errorLine (message : String) : String := "Error: " ++ message ++ "\n"

/-- The lines for log entries, as far as directives show them. -/
def logLines (ds : List Log.Directive) (entries : List Log.Entry) : String :=
  String.join ((entries.filter (Log.Directive.show? ds)).map Log.Entry.line)

variable {m : Type → Type} [Monad m]

/-! ## Inputs -/

/-- Reads a file and decodes it. -/
def readFile {α : Type} (around : Surroundings m) (decode : String → Option α) (path : String) :
    ExceptT Failure m α := do
  match ← (around.readText path : m (Except String String)) with
  | .error cause => throw (.impossible s!"Failed to read {path}: {cause}")
  | .ok text =>
      match decode text with
      | some x => pure x
      | none => throw (.rejected (.refused .invalidSyntax (path ++ ": invalid content")))

/-- Decodes a resource. -/
def resource? (text : String) : Option Resource :=
  ((Json.ofText? text).bind Json.object?).map Resource.mk

/-- Decodes a change request. -/
def patchRequest? (text : String) : Option Patch.Request :=
  (Json.Written.ofText? text).bind Patch.Request.ofWritten?

/-- Rejects the input with the response to an error. -/
def orReject {ε α : Type} (response : ε → ErrorResponse) : Except ε α → ExceptT Failure m α
  | .ok x => pure x
  | .error e => throw (.rejected (response e))

/-- The text of a resource. -/
def resourceText (r : Resource) : String := r.toJson.pretty ++ "\n"

/-! ## Commands -/

/-- The text of a command. -/
def perform (around : Surroundings m) (service : Service) : Command → ExceptT Failure m String
  | .parse filter => do
      let tree ← orReject Filter.Error.response (service.readFilter filter)
      pure (tree.display ++ "\n")
  | .eval schema resource filter => do
      let schema ← orReject Service.Error.response (service.schema schema)
      let r ← readFile around resource? resource
      let tree ← orReject Filter.Error.response (service.readFilter filter)
      pure (if Service.accepts schema tree r then "true\n" else "false\n")
  | .patch schema resource request => do
      let schema ← orReject Service.Error.response (service.schema schema)
      let r ← readFile around resource? resource
      let request ← readFile around patchRequest? request
      let changed ← orReject Patch.Error.response (service.patch schema r request)
      pure (resourceText changed)
  | .validate schema resource reference => do
      let schema ← orReject Service.Error.response (service.schema schema)
      let r ← readFile around resource? resource
      let stored ← match reference with
        | some path => do
            let stored ← readFile around resource? path
            pure (some stored)
        | none => pure none
      let checked := Service.validate schema stored r
      orReject Validation.Error.response checked.result
      pure (resourceText checked.value)

/-- Ends a command that has been performed. -/
def conclude (log : String) : Except Failure String → Outcome
  | .ok text => { exitCode := 0, output := text, errors := log }
  | .error (.rejected r) => { exitCode := 1, output := r.toJson.pretty ++ "\n", errors := log }
  | .error (.impossible message) => { exitCode := 2, errors := log ++ errorLine message }

/-- Sets up a service and performs a command. -/
def performWith (around : Surroundings m) (settings : Settings) (command : Command) :
    m Outcome := do
  let (entries, service) ← Service.setUp around settings
  let log := logLines settings.logging.directives entries
  match service with
  | .error e => pure { exitCode := 2, errors := log ++ errorLine e.message }
  | .ok service => do
      let result ← (perform around service command).run
      pure (conclude log result)

/-- Runs the program. -/
def run (around : Surroundings m) (arguments : List String) : m Outcome :=
  match request? arguments with
  | none => pure { exitCode := 2, errors := programHelp }
  | some (.help subject) => pure { exitCode := 0, output := subject.text }
  | some .version => pure { exitCode := 0, output := versionText }
  | some (.perform none command) => performWith around {} command
  | some (.perform (some path) command) => do
      match ← Settings.load around path with
      | .error e => pure { exitCode := 2, errors := errorLine e.message }
      | .ok settings => performWith around settings command

end Scim.CommandLine
