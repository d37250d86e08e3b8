import Scim.ErrorResponse
import Scim.Limits
import Scim.Patch.Application
import Scim.Schema.Core
import Scim.Schema.Record
import Scim.Validation.Mutability
import Scim.Validation.Required
import Scim.Validation.Types

/-!
# The service

A service has schemas, of which no two have the same identifier, and limits.  It answers requests:
it filters resources, changes them, and checks resources that a client sends.

A schema is found by its identifier as it is written, or else by its name in any case.
-/

namespace Scim

/-- A set of schemas with limits. -/
structure Service where
  /-- The schemas in the order in which they were given. -/
  schemas : List Schema
  /-- The limits. -/
  limits : Limits

/-- Why a service cannot be set up or asked. -/
inductive Service.Error where
  /-- A schema cannot be loaded. -/
  | schema (cause : Schema.Error)
  | duplicateSchema (id : String)
  | unknownSchema (key : String)
  deriving DecidableEq, Repr

namespace Service

/-- The text of an error. -/
def Error.message : Error → String
  | schema cause => cause.message
  | duplicateSchema id => s!"Schema '{id}' is defined more than once"
  | unknownSchema key => s!"Unknown schema '{key}'"

/-- The response to an error. -/
def Error.response (e : Error) : ErrorResponse :=
  match e with
  | .unknownSchema _ => .refused .invalidValue e.message
  | _ => .internal e.message

/-! ## Schemas -/

/-- The first identifier that occurs among the earlier ones. -/
def duplicate? (earlier : List String) : List Schema → Option String
  | [] => none
  | s :: rest => if earlier.contains s.id then some s.id else duplicate? (earlier ++ [s.id]) rest

/-- A service with the given schemas. -/
def ofSchemas (schemas : List Schema) (limits : Limits) : Except Error Service :=
  match duplicate? [] schemas with
  | some id => .error (.duplicateSchema id)
  | none => .ok ⟨schemas, limits⟩

/-- The schema of an identifier or a name. -/
def schema? (s : Service) (key : String) : Option Schema :=
  (s.schemas.find? fun x => x.id == key) <|> s.schemas.find? fun x => Text.alike x.name key

/-- The schema of an identifier or a name, or an error. -/
def schema (s : Service) (key : String) : Except Error Schema :=
  match s.schema? key with
  | some x => .ok x
  | none => .error (.unknownSchema key)

/-! ## Requests -/

/-- Reads a filter. -/
def readFilter (s : Service) (text : String) : Except Filter.Error Filter.Tree :=
  Filter.read s.limits.maxFilterLength text

/-- Whether a resource of a schema matches a filter. -/
def accepts (schema : Schema) (tree : Filter.Tree) (r : Resource) : Bool :=
  tree.accepts schema.root r.toJson

/-- Changes a resource of a schema. -/
def patch (s : Service) (schema : Schema) (r : Resource) (request : Patch.Request) :
    Except Patch.Error Resource :=
  if s.limits.maxPatchOperations < request.operations.length then
    .error (.tooManyOperations request.operations.length s.limits.maxPatchOperations)
  else do
    let members ← request.apply s.limits.maxFilterLength schema r.members
    .ok ⟨members⟩

/-- Goes on with a check when what came before it succeeded. -/
def andThen (edited : Walk.Edited Validation.Error Resource)
    (check : Resource → Except Validation.Error Unit) : Walk.Edited Validation.Error Resource :=
  match edited.result with
  | .ok () => ⟨edited.value, check edited.value⟩
  | .error _ => edited

/-- Checks a resource beside its stored version, if there is one.  Values that only the server
sets are reset before types and required attributes are checked. -/
def validate (schema : Schema) (stored : Option Resource) (r : Resource) :
    Walk.Edited Validation.Error Resource :=
  andThen
    (andThen (Validation.enforceMutability schema stored r) (Validation.checkTypes schema))
    (Validation.checkRequired schema)

/-- Checks a resource that a client wants to have made. -/
def validateCreate (schema : Schema) (r : Resource) : Walk.Edited Validation.Error Resource :=
  validate schema none r

/-- Checks a resource that a client wants to put into the place of a stored one. -/
def validateReplace (schema : Schema) (stored r : Resource) :
    Walk.Edited Validation.Error Resource :=
  validate schema (some stored) r

end Service

end Scim
