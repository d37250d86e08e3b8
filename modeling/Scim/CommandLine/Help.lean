import Scim.CommandLine.Arguments

/-!
# Help for the command line

The texts that describe the program and its commands: what they are for, how they are called, and
a table of operands and flags.  The second column of a table starts two places behind the longest
entry of the first.
-/

namespace Scim.CommandLine

/-- The name of the program. -/
def programName : String := "scim-engine"

/-- The text that names the version. -/
def versionText : String := programName ++ " 0.1.0\n"

namespace Topic

/-- What a command is for. -/
def about : Topic → String
  | parse => "Parse a filter and print its expression tree"
  | eval => "Evaluate a filter against a resource"
  | patch => "Apply a PATCH request and print the patched resource"
  | validate => "Validate a resource for creation, or for replacing a stored resource"

/-- The operands of a command and what they are. -/
def operands : Topic → List (String × String)
  | parse => [("<FILTER>", "Filter expression, e.g. \x60userName eq \"bjensen\"\x60")]
  | eval => [("<FILTER>", "Filter expression")]
  | patch | validate => []

end Topic

namespace Flag

/-- The flag with a name for its value. -/
def usage (f : Flag) : String := "--" ++ f.long ++ " <" ++ f.long.map Char.toUpper ++ ">"

/-- The flag as the first column of a table has it. -/
def entry (f : Flag) : String :=
  match f.short with
  | some c => "-" ++ String.singleton c ++ ", " ++ f.usage
  | none => "    " ++ f.usage

end Flag

/-- A table with two columns under a title. -/
def table (title : String) (rows : List (String × String)) : String :=
  let width := (rows.map fun r => r.1.length).foldl max 0
  let line (r : String × String) : String :=
    "  " ++ r.1 ++ String.ofList (List.replicate (width + 2 - r.1.length) ' ') ++ r.2 ++ "\n"
  title ++ ":\n" ++ String.join (rows.map line)

/-- A table, or nothing if it has no rows. -/
def optionalTable (title : String) (rows : List (String × String)) : String :=
  if rows.isEmpty then "" else table title rows ++ "\n"

/-- What the help is for that can be asked for like a command. -/
def helpAbout : String := "Print this message or the help of the given subcommand(s)"

/-- The help for the program. -/
def programHelp : String :=
  "SCIM 2.0 filter, PATCH and validation engine\n\nUsage: " ++ programName ++
    " [OPTIONS] <COMMAND>\n\n" ++
    table "Commands"
      (Topic.all.map (fun t => (t.word, t.about)) ++
        [("help", helpAbout)]) ++ "\n" ++
    table "Options"
      [(settingsFlag.entry, settingsFlag.about), ("-h, --help", "Print help"),
        ("-V, --version", "Print version")]

/-- The help for a command. -/
def Topic.help (t : Topic) : String :=
  let required := (t.flags.filter (·.required)).map Flag.usage
  let words := [programName, t.word, "[OPTIONS]"] ++ required ++ t.operands.map (·.1)
  t.about ++ "\n\nUsage: " ++ String.intercalate " " words ++ "\n\n" ++
    optionalTable "Arguments" t.operands ++
    table "Options"
      ((t.flags ++ [settingsFlag]).map (fun f => (f.entry, f.about)) ++
        [("-h, --help", "Print help")])

/-- The help for help. -/
def helpHelp : String :=
  helpAbout ++ "\n\nUsage: " ++ programName ++ " help [COMMAND]...\n\n" ++
    table "Arguments" [("[COMMAND]...", "Print help for the subcommand(s)")]

/-- The help that a subject gets. -/
def Subject.text : Subject → String
  | program => programHelp
  | command t => t.help
  | help => helpHelp

end Scim.CommandLine
