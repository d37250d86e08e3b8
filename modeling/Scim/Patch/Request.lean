import Scim.Json.Members
import Scim.Json.Record
import Scim.Patch.Error
import Scim.Text.Blank

/-!
# Change requests

A request declares its schema and lists operations.  An operation has a verb, and may have a path
and a value; no value is the same as the value `null`.  The verbs are read in small letters, in
capitals, and with a capital in front.
-/

namespace Scim.Patch

open Json (Written)

/-- One operation of a request. -/
structure Operation where
  /-- What to do. -/
  verb : Verb
  /-- Where to do it, if not at the top. -/
  path : Option String := none
  /-- What to do it with. -/
  value : Json := .null

/-- A change request. -/
structure Request where
  /-- The declared schemas. -/
  schemas : List String
  /-- The operations in order. -/
  operations : List Operation

/-- The identifier of the schema of requests. -/
def schemaId : String := "urn:ietf:params:scim:api:messages:2.0:PatchOp"

namespace Operation

/-- The path without white space around it, empty if there is none. -/
def place (o : Operation) : String := String.ofList (Text.trim (o.path.getD "").toList)

/-- The spellings of verbs. -/
def verbNames : List (String × Verb) :=
  [("add", .add), ("Add", .add), ("ADD", .add), ("remove", .remove), ("Remove", .remove),
    ("REMOVE", .remove), ("replace", .replace), ("Replace", .replace), ("REPLACE", .replace)]

/-- Decodes an operation. -/
def ofWritten? (v : Written) : Option Operation := do
  match ← Written.fields? ["op", "path", "value"] v with
  | [verb, path, value] =>
      some {
        verb := ← Written.required? (Written.choice? verbNames) verb
        path := ← Written.nullable? Written.string? path
        value := ← (value.getD .null).json? }
  | _ => none

/-- Writes an operation. -/
def toJson (o : Operation) : Json :=
  .object <| Members.ofPairs <|
    [("op", .string o.verb.word)] ++
    (o.path.map fun p => ("path", Json.string p)).toList ++
    (if o.value.isNull then [] else [("value", o.value)])

end Operation

namespace Request

/-- A request of the declared kind. -/
def ofOperations (operations : List Operation) : Request := ⟨[schemaId], operations⟩

/-- Whether the request declares the schema of requests and nothing else. -/
def isDeclared (r : Request) : Bool := r.schemas == [schemaId]

/-- Decodes a request. -/
def ofWritten? (v : Written) : Option Request := do
  match ← Written.fields? ["schemas", "Operations"] v with
  | [schemas, operations] =>
      some {
        schemas := ← Written.required? (Written.list? Written.string?) schemas
        operations := ← Written.required? (Written.list? Operation.ofWritten?) operations }
  | _ => none

/-- Writes a request. -/
def toJson (r : Request) : Json :=
  .object <| Members.ofPairs
    [("schemas", .array (r.schemas.map .string)),
      ("Operations", .array (r.operations.map Operation.toJson))]

end Request

end Scim.Patch
