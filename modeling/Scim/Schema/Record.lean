import Scim.Json.Reader
import Scim.Json.Record
import Scim.Schema.Basic

/-!
# Schemas as JSON

An attribute is a record of nine fields, of which only the name must be there.  Its sub-attributes
are attributes again, so decoding follows the value: every part of a record is decoded both as an
attribute and as a list of attributes, and the record takes from its parts what it needs.

The type `binary` is read as `string`.  Writing leaves out the description, the sub-attributes
and the index key when they are empty, and never says where an attribute is placed, which
`Schema.build` finds out again.
-/

namespace Scim

open Json (Written)

namespace Attribute

/-- The names of types. -/
def typeNames : List (String × ValueType) :=
  [("string", .string), ("binary", .string), ("boolean", .boolean), ("decimal", .decimal),
    ("integer", .integer), ("dateTime", .dateTime), ("reference", .reference),
    ("complex", .complex)]

/-- The names of mutabilities. -/
def mutabilityNames : List (String × Mutability) :=
  [("readOnly", .readOnly), ("readWrite", .readWrite), ("immutable", .immutable),
    ("writeOnly", .writeOnly)]

/-- The fields of an attribute, in order. -/
def fieldNames : List String :=
  ["name", "type", "multiValued", "description", "required", "caseExact", "mutability",
    "subAttributes", "arrayIndexKey"]

/-- An attribute of its fields, with the decoded sub-attributes of the eighth one. -/
def ofFields? (subs : Option (List Attribute)) : List (Option Written) → Option Attribute
  | [name, type, multiValued, description, required, caseExact, mutability, subAttributes,
      arrayIndexKey] => do
      let traits : Traits := {
        name := ← Written.required? Written.string? name
        type := ← Written.optional? (Written.choice? typeNames) .string type
        multiValued := ← Written.optional? Written.bool? false multiValued
        description := ← Written.nullable? Written.string? description
        required := ← Written.optional? Written.bool? false required
        caseExact := ← Written.optional? Written.bool? false caseExact
        mutability := ← Written.optional? (Written.choice? mutabilityNames) .readWrite mutability
        arrayIndexKey := ← Written.nullable? Written.string? arrayIndexKey }
      let subs ← if subAttributes.isSome then subs else some []
      some { traits with subAttributes := subs }
  | _ => none

mutual

/-- Decodes an attribute. -/
def ofWritten? : Written → Option Attribute
  | .object members => do
      let parts ← Written.fields? fieldNames (.object members)
      ofFields? ((partsOfMembers members).lookup "subAttributes").join parts
  | .array items => do
      let parts ← Written.fields? fieldNames (.array items)
      ofFields? ((partsOfItems items)[7]?).join parts
  | _ => none
termination_by structural v => v

/-- Decodes a list of attributes. -/
def listOfWritten? : Written → Option (List Attribute)
  | .array items => listOfItems? items
  | _ => none
termination_by structural v => v

/-- Decodes every item as an attribute. -/
def listOfItems? : List Written → Option (List Attribute)
  | [] => some []
  | v :: rest => do
      let a ← ofWritten? v
      let others ← listOfItems? rest
      some (a :: others)
termination_by structural vs => vs

/-- The members, each decoded as a list of attributes. -/
def partsOfMembers : List (String × Written) → List (String × Option (List Attribute))
  | [] => []
  | (k, v) :: rest => (k, listOfWritten? v) :: partsOfMembers rest
termination_by structural ms => ms

/-- The items, each decoded as a list of attributes. -/
def partsOfItems : List Written → List (Option (List Attribute))
  | [] => []
  | v :: rest => listOfWritten? v :: partsOfItems rest
termination_by structural vs => vs

end

mutual

/-- Writes an attribute. -/
def toJson : Attribute → Json
  | ⟨traits, subs⟩ =>
      .object <| Members.ofPairs <|
        [("name", .string traits.name), ("type", .string traits.type.word),
          ("multiValued", .bool traits.multiValued), ("required", .bool traits.required),
          ("caseExact", .bool traits.caseExact), ("mutability", .string traits.mutability.word)] ++
        (traits.description.map fun d => ("description", Json.string d)).toList ++
        (if subs.isEmpty then [] else [("subAttributes", Json.array (listToJson subs))]) ++
        (traits.arrayIndexKey.map fun k => ("arrayIndexKey", Json.string k)).toList
termination_by structural a => a

/-- Writes every attribute of a list. -/
def listToJson : List Attribute → List Json
  | [] => []
  | a :: rest => toJson a :: listToJson rest
termination_by structural as => as

end

end Attribute

namespace Schema

/-- Decodes a definition and builds the schema. -/
def ofWritten (v : Written) : Except Error Schema :=
  let decoded : Option (String × String × Option String × List Attribute) := do
    match ← Written.fields? ["id", "name", "description", "attributes"] v with
    | [id, name, description, attributes] =>
        some (← Written.required? Written.string? id, ← Written.required? Written.string? name,
          ← Written.nullable? Written.string? description,
          ← Written.required? Attribute.listOfWritten? attributes)
    | _ => none
  match decoded with
  | some (id, name, description, attributes) => build id name description attributes
  | none => .error .malformed

/-- Reads a definition. -/
def ofText (text : String) : Except Error Schema :=
  match Written.ofText? text with
  | some v => ofWritten v
  | none => .error .malformed

end Schema

end Scim
