import Scim.Service
import Scim.Settings.Basic

/-!
# Settings and schemas in files

Settings are loaded from a file, and a service is set up with the schemas of the files that the
settings name.  A relative path in the settings is meant from the directory of their own file.

Setting a service up makes a log entry for every schema, another one if it comes from a file, and
one for the service.

What a path holds and what a variable of the environment is set to comes from a *surroundings*
value, so that everything here works in any monad.
-/

namespace Scim

/-- Where a path and a variable of the environment lead. -/
structure Surroundings (m : Type → Type) where
  /-- The text of a file, or why it cannot be read. -/
  readText : String → m (Except String String)
  /-- The value of a variable, if it is set. -/
  valueOf : String → m (Option String)

/-! ## Directories -/

namespace Directory

/-- The parts of a path between its slashes. -/
def parts (path : String) : List (List Char) := path.toList.splitOn '/'

/-- Whether a path starts at the top of all directories. -/
def isAbsolute (path : String) : Bool := path.toList.head? = some '/'

/-- Whether a part stands for nothing behind another one. -/
def isIdle (part : List Char) : Bool := part.isEmpty || part == ['.']

/-- The parts, last first, without idle ones in front, except that the first part of the path
always counts. -/
def dropIdle : List (List Char) → List (List Char)
  | [] => []
  | [first] => if first.isEmpty then [] else [first]
  | part :: rest => if isIdle part then dropIdle rest else part :: rest

/-- The directory of a path, unless the path is empty or the top of all directories. -/
def ofPath? (path : String) : Option String :=
  match dropIdle (parts path).reverse with
  | [] => none
  | _ :: before =>
      let kept := (dropIdle before).reverse
      let text := List.intercalate ['/'] kept
      some (String.ofList (if isAbsolute path && kept.isEmpty then ['/'] else text))

/-- A path meant from a directory. -/
def within (directory path : String) : String :=
  if isAbsolute path || directory.isEmpty then path
  else if directory.toList.getLast? = some '/' then directory ++ path
  else directory ++ "/" ++ path

end Directory

/-! ## Loading -/

variable {m : Type → Type} [Monad m]

namespace Settings

/-- The settings with the paths of schemas meant from the directory of a file. -/
def placedAt (s : Settings) (path : String) : Settings :=
  match Directory.ofPath? path with
  | some directory =>
      let files := s.schemas.files.map (Directory.within directory)
      { s with schemas := { s.schemas with files } }
  | none => s

/-- Loads settings from a file. -/
def load (around : Surroundings m) (path : String) : m (Except Error Settings) := do
  match ← around.readText path with
  | .error cause => pure (.error (.unreadable path cause))
  | .ok text =>
      let known ← (Environment.names text.toList).mapM fun name => do
        let value ← around.valueOf name
        pure (name, value)
      pure ((ofText (fun name => (known.lookup name).join) text).map (·.placedAt path))

end Settings

namespace Service

/-- A schema and the file that it comes from, if it does. -/
structure Loaded where
  /-- The schema. -/
  schema : Schema
  /-- The path of the file. -/
  file : Option String := none

/-- The schemas of files after those that are there already, and whether all could be loaded. -/
def loadSchemas (around : Surroundings m) (loaded : List Loaded) :
    List String → m (List Loaded × Except Error Unit)
  | [] => pure (loaded, .ok ())
  | path :: rest => do
      match ← around.readText path with
      | .error cause => pure (loaded, .error (.schema (.unreadable path cause)))
      | .ok text =>
          match Schema.ofText text with
          | .error cause => pure (loaded, .error (.schema cause))
          | .ok schema => loadSchemas around (loaded ++ [⟨schema, some path⟩]) rest

/-- The log entries for a schema. -/
def Loaded.entries (l : Loaded) : List Log.Entry :=
  { level := .debug, origin := "scim_engine::scim::schema", message := "Schema loaded"
    details := [("schema", l.schema.id), ("attributes", toString l.schema.index.length)] } ::
  (l.file.map fun path =>
    { level := .debug, origin := "scim_engine::engine", message := "Loaded schema file"
      details := [("schema", l.schema.id), ("file", path)] : Log.Entry }).toList

/-- The log entry for a service. -/
def readyEntry (s : Service) : Log.Entry :=
  { level := .debug, origin := "scim_engine::engine", message := "SCIM engine ready"
    details := [("count", toString s.schemas.length)] }

/-- The service with the schemas that settings name, and the log entries on the way to it. -/
def setUp (around : Surroundings m) (s : Settings) :
    m (List Log.Entry × Except Error Service) := do
  let core := if s.schemas.core then [Schema.user, Schema.group] else []
  let (loaded, result) ← loadSchemas around (core.map fun c => ⟨c, none⟩) s.schemas.files
  let entries := loaded.flatMap Loaded.entries
  match result with
  | .error e => pure (entries, .error e)
  | .ok () =>
      match ofSchemas (loaded.map (·.schema)) s.limits with
      | .error e => pure (entries, .error e)
      | .ok service => pure (entries ++ [service.readyEntry], .ok service)

end Service

end Scim
