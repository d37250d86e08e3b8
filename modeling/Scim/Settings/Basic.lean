import Scim.Limits
import Scim.Log.Directive
import Scim.Settings.Environment
import Scim.Toml.Reader

/-!
# Settings

Settings say how large inputs may be, what is logged, and which schemas a service has.  They are
read from a TOML document in which references to the environment are expanded first.  Every
section and every field may be left out; a field that is not known is refused.

A section can also be written as an array of its fields in order, and a choice as a table with one
empty entry of its name.
-/

namespace Scim

/-- The form of log lines. -/
inductive Settings.Format where
  | pretty
  | compact
  | json
  deriving DecidableEq, Repr

/-- What is logged and how. -/
structure Settings.Logging where
  /-- How much is logged. -/
  level : Log.Level := .warn
  /-- The form of log lines. -/
  format : Settings.Format := .compact
  /-- Directives that are more specific than the level. -/
  filter : Option String := none

/-- Which schemas a service has. -/
structure Settings.Sources where
  /-- Whether the core schemas are among them. -/
  core : Bool := true
  /-- The paths of files with schemas. -/
  files : List String := []

/-- The settings of a service. -/
structure Settings where
  /-- How large inputs may be. -/
  limits : Limits := {}
  /-- What is logged. -/
  logging : Settings.Logging := {}
  /-- Which schemas there are. -/
  schemas : Settings.Sources := {}

namespace Settings

/-- What is wrong with settings. -/
inductive Fault where
  | noFilterLength
  | noPatchOperations
  | noSchemas
  deriving DecidableEq, Repr

/-- Why settings cannot be loaded. -/
inductive Error where
  /-- The file cannot be read. -/
  | unreadable (path cause : String)
  /-- The text does not describe settings. -/
  | malformed
  /-- A variable of the environment is not set. -/
  | unsetVariable (name : String)
  /-- The settings make no sense. -/
  | invalid (fault : Fault)
  deriving DecidableEq, Repr

/-- The text of a fault. -/
def Fault.message : Fault → String
  | noFilterLength => "limits.max_filter_length must be greater than 0"
  | noPatchOperations => "limits.max_patch_operations must be greater than 0"
  | noSchemas =>
      "schemas.core is disabled and schemas.files is empty; no schemas would be loaded"

/-- The text of an error. -/
def Error.message : Error → String
  | unreadable path cause => s!"Failed to read config file {path}: {cause}"
  | malformed => "Failed to parse config"
  | unsetVariable name => s!"Environment variable not found: {name}"
  | invalid fault => s!"Configuration validation error: {fault.message}"

/-! ## What is logged -/

/-- The directives for what is logged: the level for all entries, and those of the filter if all
of them make sense. -/
def Logging.directives (l : Logging) : List Log.Directive :=
  { verbosity := l.level.verbosity } ::
    ((l.filter.bind fun text => Log.Directive.listOfText? text.toList).getD [])

/-- The word for a format. -/
def Format.word : Format → String
  | pretty => "pretty"
  | compact => "compact"
  | json => "json"

/-- Every format. -/
def Format.all : List Format := [pretty, compact, json]

/-! ## Decoding -/

/-- The fields of a section that is written as an array.  Items behind the last field are
ignored. -/
def fieldsInOrder (names : List String) (items : List Toml.Value) : List (Option Toml.Value) :=
  items.map some ++ List.replicate (names.length - items.length) none |>.take names.length

/-- The fields of a section, in the order of the names.  Other entries are refused. -/
def fields? (names : List String) : Toml.Value → Option (List (Option Toml.Value))
  | .table _ entries =>
      if entries.all fun e => names.contains e.1 then
        some (names.map fun name => entries.lookup name)
      else none
  | .array items => some (fieldsInOrder names items)
  | .tables earlier last =>
      some (fieldsInOrder names ((earlier ++ [last]).map (.table .header)))
  | _ => none

/-- A field with a default. -/
def field? {α : Type} (decode : Toml.Value → Option α) (default : α) :
    Option Toml.Value → Option α
  | some v => decode v
  | none => some default

/-- A count below `2^64`. -/
def count? : Toml.Value → Option Nat
  | .integer i => if 0 ≤ i ∧ i < 0x10000000000000000 then some i.toNat else none
  | _ => none

/-- A text. -/
def text? : Toml.Value → Option String
  | .string s => some s
  | _ => none

/-- A truth value. -/
def truth? : Toml.Value → Option Bool
  | .boolean b => some b
  | _ => none

/-- A list of texts. -/
def texts? : Toml.Value → Option (List String)
  | .array items => items.mapM text?
  | _ => none

/-- A choice between names. -/
def choice? {α : Type} (names : List (String × α)) : Toml.Value → Option α
  | .string s => names.lookup s
  | .table _ [(s, .table _ [])] => names.lookup s
  | .table _ [(s, .array [])] => names.lookup s
  | _ => none

/-- Decodes limits. -/
def limits? (v : Toml.Value) : Option Limits := do
  match ← fields? Limits.fieldNames v with
  | [maxFilterLength, maxPatchOperations] =>
      let defaults : Limits := {}
      some {
        maxFilterLength := ← field? count? defaults.maxFilterLength maxFilterLength
        maxPatchOperations := ← field? count? defaults.maxPatchOperations maxPatchOperations }
  | _ => none

/-- Decodes what is logged. -/
def logging? (v : Toml.Value) : Option Logging := do
  match ← fields? ["level", "format", "filter"] v with
  | [level, format, filter] =>
      some {
        level := ← field? (choice? (Log.Level.all.map fun l => (l.word, l))) .warn level
        format := ← field? (choice? (Format.all.map fun f => (f.word, f))) .compact format
        filter := ← field? (fun v => (text? v).map some) none filter }
  | _ => none

/-- Decodes which schemas there are. -/
def sources? (v : Toml.Value) : Option Sources := do
  match ← fields? ["core", "files"] v with
  | [core, files] =>
      some { core := ← field? truth? true core, files := ← field? texts? [] files }
  | _ => none

/-- Decodes settings. -/
def ofToml? (entries : Toml.Entries) : Option Settings := do
  match ← fields? ["limits", "logging", "schemas"] (.table .header entries) with
  | [limits, logging, schemas] =>
      some {
        limits := ← field? limits? {} limits
        logging := ← field? logging? {} logging
        schemas := ← field? sources? {} schemas }
  | _ => none

/-! ## Reading -/

/-- What is wrong with the settings. -/
def fault? (s : Settings) : Option Fault :=
  if s.limits.maxFilterLength = 0 then some .noFilterLength
  else if s.limits.maxPatchOperations = 0 then some .noPatchOperations
  else if !s.schemas.core && s.schemas.files.isEmpty then some .noSchemas
  else none

/-- Reads settings, where `valueOf` is the environment. -/
def ofText (valueOf : String → Option String) (text : String) : Except Error Settings :=
  match Environment.expand valueOf text.toList with
  | .error name => .error (.unsetVariable name)
  | .ok expanded =>
      match (Toml.ofText? expanded).bind ofToml? with
      | none => .error .malformed
      | some s =>
          match s.fault? with
          | some fault => .error (.invalid fault)
          | none => .ok s

end Settings

end Scim
