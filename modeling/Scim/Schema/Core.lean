import Scim.Schema.Basic

/-!
# The core schemas

The schemas of users and groups.  Their declarations are in order, so they are assembled without
a check; the examples at the end say so.
-/

namespace Scim.Schema

/-- The identifier of the User schema. -/
def userId : String := "urn:ietf:params:scim:schemas:core:2.0:User"

/-- The identifier of the Group schema. -/
def groupId : String := "urn:ietf:params:scim:schemas:core:2.0:Group"

/-- Attributes of type `string`. -/
def texts (names : List String) : List Attribute := names.map fun name => { name }

/-- A multi-valued attribute of values with a display name, a type and a preference. -/
def labelled (name : String) (valueType : Attribute.ValueType) : Attribute :=
  { name, type := .complex, multiValued := true
    subAttributes :=
      [{ name := "value", type := valueType }, { name := "display" }, { name := "type" },
        { name := "primary", type := .boolean }] }

/-- A person's name in parts. -/
def nameAttribute : Attribute :=
  { name := "name", type := .complex
    subAttributes := texts
      ["formatted", "familyName", "givenName", "middleName", "honorificPrefix",
        "honorificSuffix"] }

/-- Postal addresses, told apart by their type. -/
def addressesAttribute : Attribute :=
  { name := "addresses", type := .complex, multiValued := true, arrayIndexKey := some "type"
    subAttributes := texts
      ["formatted", "streetAddress", "locality", "region", "postalCode", "country", "type"] ++
      [{ name := "primary", type := .boolean }] }

/-- The groups of a user, which only the server sets. -/
def groupsAttribute : Attribute :=
  { name := "groups", type := .complex, multiValued := true, mutability := .readOnly
    subAttributes :=
      [{ name := "value", mutability := .readOnly },
        { name := "$ref", type := .reference, mutability := .readOnly },
        { name := "display", mutability := .readOnly },
        { name := "type", mutability := .readOnly }] }

/-- The declarations of the User schema. -/
def userAttributes : List Attribute :=
  [{ name := "userName", required := true }, nameAttribute] ++
  texts ["displayName", "nickName"] ++
  [{ name := "profileUrl", type := .reference }] ++
  texts ["title", "userType", "preferredLanguage", "locale", "timezone"] ++
  [{ name := "active", type := .boolean },
    { name := "password", caseExact := true, mutability := .writeOnly },
    labelled "emails" .string, labelled "phoneNumbers" .string, labelled "ims" .string,
    labelled "photos" .reference, addressesAttribute, groupsAttribute,
    labelled "entitlements" .string, labelled "roles" .string,
    labelled "x509Certificates" .string]

/-- The declarations of the Group schema. -/
def groupAttributes : List Attribute :=
  [{ name := "displayName", required := true },
    { name := "members", type := .complex, multiValued := true
      subAttributes :=
        [{ name := "value", caseExact := true, mutability := .immutable },
          { name := "$ref", type := .reference, mutability := .immutable },
          { name := "display", mutability := .readOnly },
          { name := "type", mutability := .immutable }] }]

/-- The schema of users. -/
def user : Schema :=
  assemble userId "User" (some "User Account") (withCommon userAttributes commonAttributes)

/-- The schema of groups. -/
def group : Schema :=
  assemble groupId "Group" (some "Group") (withCommon groupAttributes commonAttributes)

/-- Whether the schema has the identifier of a core schema. -/
def isCore (schema : Schema) : Bool := schema.id == userId || schema.id == groupId

example : faultAmong? [] (withCommon userAttributes commonAttributes) = none := by
  decide +kernel

example : faultAmong? [] (withCommon groupAttributes commonAttributes) = none := by
  decide +kernel

end Scim.Schema
