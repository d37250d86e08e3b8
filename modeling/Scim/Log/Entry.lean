/-!
# Log entries

What a program tells about its work.  An entry has a level, says which part of the program it
comes from, and carries a message and further fields.
-/

namespace Scim.Log

/-- How much an entry matters. -/
inductive Level where
  | trace
  | debug
  | info
  | warn
  | error
  deriving DecidableEq, Repr

namespace Level

/-- The word for a level. -/
def word : Level → String
  | trace => "trace"
  | debug => "debug"
  | info => "info"
  | warn => "warn"
  | error => "error"

/-- Every level, from the most to the fewest entries. -/
def all : List Level := [trace, debug, info, warn, error]

/-- The number of levels that matter at least as much. -/
def verbosity : Level → Nat
  | error => 1
  | warn => 2
  | info => 3
  | debug => 4
  | trace => 5

end Level

/-- A log entry. -/
structure Entry where
  /-- How much it matters. -/
  level : Level
  /-- The part of the program, from the outside in. -/
  origin : String
  /-- What has happened. -/
  message : String
  /-- What it has happened to. -/
  details : List (String × String) := []
  deriving DecidableEq, Repr

namespace Entry

/-- The names of the fields. -/
def fieldNames (e : Entry) : List String := "message" :: e.details.map (·.1)

/-- The entry on a line. -/
def line (e : Entry) : String :=
  let details := e.details.map fun d => " " ++ d.1 ++ "=" ++ d.2
  e.level.word.map Char.toUpper ++ " " ++ e.origin ++ ": " ++ e.message ++ String.join details ++
    "\n"

end Entry

end Scim.Log
