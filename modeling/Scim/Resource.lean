import Scim.Json.Members
import Scim.Json.Record
import Scim.Time.Instant

/-!
# Resources

A resource is a JSON object.  Its members are read and written by attribute name, whatever the
case of the key.  Some attributes mean the same in every resource: `id`, `externalId`, `schemas`
and `meta`.

`Meta` is the block that says where a resource comes from.  It is read leniently, and written
with instants in UTC.
-/

namespace Scim

open Json (Written)

/-- A resource. -/
structure Resource where
  /-- The members. -/
  members : Members
  deriving DecidableEq

/-- Where a resource comes from. -/
structure Meta where
  /-- The name of the resource type. -/
  resourceType : String
  /-- When the resource was made. -/
  created : Instant
  /-- When it was last changed. -/
  lastModified : Instant
  /-- Where it can be found. -/
  location : Option String := none
  /-- Its version. -/
  version : Option String := none

namespace Meta

/-- The block with another instant of change. -/
def touch (m : Meta) (instant : Instant) : Meta := { m with lastModified := instant }

/-- Reads an instant. -/
def instant? (v : Written) : Option Instant := v.string?.bind fun s => Instant.ofLenient? s.toList

/-- Decodes a block. -/
def ofWritten? (v : Written) : Option Meta := do
  match ← Written.fields? ["resourceType", "created", "lastModified", "location", "version"] v with
  | [resourceType, created, lastModified, location, version] =>
      some {
        resourceType := ← Written.required? Written.string? resourceType
        created := ← Written.required? instant? created
        lastModified := ← Written.required? instant? lastModified
        location := ← Written.nullable? Written.string? location
        version := ← Written.nullable? Written.string? version }
  | _ => none

/-- Writes a block. -/
def toJson (m : Meta) : Json :=
  .object <| Members.ofPairs <|
    [("resourceType", .string m.resourceType), ("created", .string m.created.text),
      ("lastModified", .string m.lastModified.text)] ++
    (m.location.map fun s => ("location", Json.string s)).toList ++
    (m.version.map fun s => ("version", Json.string s)).toList

end Meta

namespace Resource

/-- A resource of a schema without further members. -/
def empty (schemaId : String) : Resource := ⟨[("schemas", .array [.string schemaId])]⟩

/-- The resource as a value. -/
def toJson (r : Resource) : Json := .object r.members

/-- The value of an attribute. -/
def get? (r : Resource) (name : String) : Option Json := r.members.named? name

/-- The resource with the value of an attribute set. -/
def set (r : Resource) (name : String) (value : Json) : Resource :=
  ⟨r.members.put (r.members.slot name) value⟩

/-- The resource without an attribute. -/
def remove (r : Resource) (name : String) : Resource :=
  match r.members.key? name with
  | some key => ⟨r.members.remove key⟩
  | none => r

/-- The identifier. -/
def id? (r : Resource) : Option String := (r.get? "id").bind Json.string?

/-- The identifier that the client uses. -/
def externalId? (r : Resource) : Option String := (r.get? "externalId").bind Json.string?

/-- The identifiers of its schemas. -/
def schemas (r : Resource) : List String :=
  (((r.get? "schemas").bind Json.array?).getD []).filterMap Json.string?

/-- The block that says where the resource comes from. -/
def meta? (r : Resource) : Option Meta := (r.get? "meta").bind fun v => Meta.ofWritten? v.written

/-- The resource with its block set. -/
def setMeta (r : Resource) (m : Meta) : Resource := r.set "meta" m.toJson

end Resource

end Scim
