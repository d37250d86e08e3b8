/-!
# Arguments of the command line

The first operand names a command, and what follows belongs to that command.  A flag has a value,
in an argument of its own or behind `=`; a short flag can have its value right behind it.  No
flag occurs twice, and the path of a file is not empty.  `--` makes operands of all arguments
after it.

Arguments are scanned from left to right, and the first one that is wrong or asks for help decides.
A value in an argument of its own is looked at when the next flag or operand of the same command
line comes, or at the end; a wrong one before the name of a command is seen only after the command.

The path of the settings can be given before the name of the command and after it; the later one
counts.
-/

namespace Scim.CommandLine

/-- What is to be done. -/
inductive Command where
  /-- Show how a filter is read. -/
  | parse (filter : String)
  /-- Tell whether a resource matches a filter. -/
  | eval (schema resource filter : String)
  /-- Change a resource. -/
  | patch (schema resource request : String)
  /-- Check a resource, against a stored one if there is one. -/
  | validate (schema resource : String) (reference : Option String)
  deriving DecidableEq, Repr

/-- The names of the commands. -/
inductive Topic where
  | parse
  | eval
  | patch
  | validate
  deriving DecidableEq, Repr

/-- What help is for. -/
inductive Subject where
  | program
  | command (topic : Topic)
  | help
  deriving DecidableEq, Repr

/-- What the arguments ask for. -/
inductive Request where
  | perform (settings : Option String) (command : Command)
  | help (subject : Subject)
  | version
  deriving DecidableEq, Repr

/-- A flag with a value. -/
structure Flag where
  /-- The short form. -/
  short : Option Char := none
  /-- The long form, which also names the flag. -/
  long : String
  /-- Whether the value is the path of a file. -/
  isPath : Bool := true
  /-- What it is for. -/
  about : String := ""
  /-- Whether it has to be given. -/
  required : Bool := true
  deriving DecidableEq, Repr

namespace Topic

/-- Every command. -/
def all : List Topic := [parse, eval, patch, validate]

/-- The name of a command. -/
def word : Topic → String
  | parse => "parse"
  | eval => "eval"
  | patch => "patch"
  | validate => "validate"

/-- The command of a name. -/
def ofWord? (word : String) : Option Topic := all.find? fun t => t.word == word

/-- The number of operands. -/
def operandCount : Topic → Nat
  | parse | eval => 1
  | patch | validate => 0

end Topic

/-- The flag for the path of the settings. -/
def settingsFlag : Flag :=
  { short := some 'c', long := "config", required := false
    about := "Path to config file (defaults to the built-in configuration)" }

/-- The flag for the schema. -/
def schemaFlag : Flag := { short := some 's', long := "schema", isPath := false }

/-- The flag for the resource. -/
def resourceFlag : Flag := { short := some 'r', long := "resource" }

/-- The flags of a command of its own. -/
def Topic.flags : Topic → List Flag
  | parse => []
  | eval =>
      [{ schemaFlag with about := "Schema URN or name (e.g. \x60User\x60)" },
        { resourceFlag with about := "Resource JSON file" }]
  | patch =>
      [schemaFlag, resourceFlag, { long := "request", about := "PatchOp request JSON file" }]
  | validate =>
      [schemaFlag, resourceFlag,
        { long := "reference", required := false
          about := "Stored resource to check mutability against" }]

/-! ## Scanning -/

/-- Why scanning stops early. -/
inductive Stop where
  | misuse
  | help
  | version
  deriving DecidableEq, Repr

/-- What can be given. -/
structure Usage where
  /-- The flags with values. -/
  flags : List Flag
  /-- How many operands there are at most. -/
  operandCount : Nat := 0
  /-- The names of commands, of which the first one ends the scan. -/
  commands : List String := []
  /-- Whether the version can be asked for. -/
  hasVersion : Bool := false

/-- What has been scanned. -/
structure Scan where
  /-- The values of flags, each with the long form. -/
  values : List (String × String) := []
  /-- The operands in order. -/
  operands : List String := []
  /-- A flag whose value is due or has not been looked at. -/
  pending : Option (Flag × Option String) := none
  /-- Whether all arguments are operands. -/
  literal : Bool := false

/-- What an argument is. -/
inductive Argument where
  | terminator
  | long (name : String) (value : Option String)
  | short (name : Char) (value : Option String)
  | operand

/-- The value behind the name of a flag. -/
def attached (s : List Char) : Option String :=
  match s with
  | [] => none
  | '=' :: rest => some (String.ofList rest)
  | s => some (String.ofList s)

/-- Tells what an argument is by its form. -/
def Argument.ofText (text : String) : Argument :=
  match text.toList with
  | ['-', '-'] => .terminator
  | '-' :: '-' :: s =>
      .long (String.ofList (s.takeWhile (· != '='))) (attached (s.dropWhile (· != '=')))
  | '-' :: c :: s => .short c (attached s)
  | _ => .operand

namespace Scan

/-- Sets the value of a flag. -/
def set (s : Scan) (flag : Flag) (value : String) : Except Stop Scan :=
  if (s.values.lookup flag.long).isSome || (flag.isPath && value.isEmpty) then .error .misuse
  else .ok { s with values := s.values ++ [(flag.long, value)] }

/-- Looks at the value that is pending. -/
def settle (s : Scan) : Except Stop Scan :=
  match s.pending with
  | none => .ok s
  | some (_, none) => .error .misuse
  | some (flag, some value) => { s with pending := none }.set flag value

/-- Stops for a reason that is no misuse. -/
def stop (s : Scan) (reason : Stop) : Except Stop Scan := do
  let _ ← s.settle
  .error reason

/-- Takes a flag. -/
def takeFlag (s : Scan) (flag? : Option Flag) (value : Option String) : Except Stop Scan :=
  match flag? with
  | none => .error .misuse
  | some flag => do
      let s ← s.settle
      match value with
      | some value => s.set flag value
      | none => .ok { s with pending := some (flag, none) }

/-- Takes a flag in its long form. -/
def takeLong (s : Scan) (usage : Usage) (name : String) (value : Option String) :
    Except Stop Scan :=
  if name = "help" ∧ value = none then s.stop .help
  else if name = "version" ∧ value = none ∧ usage.hasVersion then s.stop .version
  else s.takeFlag (usage.flags.find? fun f => f.long == name) value

/-- Takes a flag in its short form. -/
def takeShort (s : Scan) (usage : Usage) (name : Char) (value : Option String) :
    Except Stop Scan :=
  if name = 'h' then s.stop .help
  else if name = 'V' ∧ usage.hasVersion then s.stop .version
  else s.takeFlag (usage.flags.find? fun f => f.short == some name) value

/-- Takes an operand. -/
def takeOperand (s : Scan) (usage : Usage) (text : String) : Except Stop Scan :=
  if s.operands.length < usage.operandCount then do
    let s ← s.settle
    .ok { s with operands := s.operands ++ [text] }
  else .error .misuse

/-- Takes an argument. -/
def take (s : Scan) (usage : Usage) (text : String) : Except Stop Scan :=
  match if s.literal then .operand else Argument.ofText text, s.pending with
  | .operand, some (flag, none) =>
      if s.literal then .error .misuse else .ok { s with pending := some (flag, some text) }
  | _, some (_, none) => .error .misuse
  | .operand, _ => s.takeOperand usage text
  | .terminator, _ => .ok { s with literal := true }
  | .long name value, _ => s.takeLong usage name value
  | .short name value, _ => s.takeShort usage name value

/-- Whether the value of a flag is due. -/
def isDue (s : Scan) : Bool :=
  match s.pending with
  | some (_, none) => true
  | _ => false

end Scan

/-- Scans arguments up to the name of a command, which is returned with the arguments after it. -/
def scan (usage : Usage) (s : Scan) : List String → Except Stop (Scan × List String)
  | [] => .ok (s, [])
  | text :: rest =>
      if !s.literal && !s.isDue && usage.commands.contains text then .ok (s, text :: rest)
      else do scan usage (← s.take usage text) rest

/-! ## Requests -/

/-- The command of a topic with its flags and operands. -/
def command? (topic : Topic) (s : Scan) : Option Command :=
  let value (name : String) : Option String := s.values.lookup name
  match topic, s.operands with
  | .parse, [filter] => some (.parse filter)
  | .eval, [filter] => do some (.eval (← value "schema") (← value "resource") filter)
  | .patch, [] => do some (.patch (← value "schema") (← value "resource") (← value "request"))
  | .validate, [] => do
      some (.validate (← value "schema") (← value "resource") (value "reference"))
  | _, _ => none

/-- What a command line asks for that stops early. -/
def Stop.request? (subject : Subject) : Stop → Option Request
  | misuse => none
  | help => some (.help subject)
  | version => some .version

/-- What can be given before the name of a command. -/
def usage : Usage :=
  { flags := [settingsFlag], commands := "help" :: Topic.all.map Topic.word, hasVersion := true }

/-- What can be given to a command. -/
def Topic.usage (t : Topic) : Usage :=
  { flags := settingsFlag :: t.flags, operandCount := t.operandCount }

/-- Reads the arguments of a command after those before its name. -/
def readCommand (before : Scan) (topic : Topic) (arguments : List String) : Option Request :=
  match scan topic.usage {} arguments with
  | .error stop => stop.request? (.command topic)
  | .ok (s, _) =>
      match s.settle, before.settle with
      | .ok s, .ok before => do
          let command ← command? topic s
          let settings (s : Scan) : Option String := s.values.lookup settingsFlag.long
          some (.perform (settings s <|> settings before) command)
      | _, _ => none

/-- Reads the arguments after the word `help`. -/
def readHelp : List String → Option Request
  | [] => some (.help .program)
  | ["help"] => some (.help .help)
  | [word] => (Topic.ofWord? word).map fun t => .help (.command t)
  | _ => none

/-- Reads arguments, unless they make no sense. -/
def request? (arguments : List String) : Option Request :=
  match scan usage {} arguments with
  | .error stop => stop.request? .program
  | .ok (_, []) => none
  | .ok (s, word :: rest) =>
      match Topic.ofWord? word with
      | some topic => readCommand s topic rest
      | none => readHelp rest

end Scim.CommandLine
