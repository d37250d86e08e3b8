import Scim.Schema.Attribute

/-!
# Errors of validation

Which attribute of a resource breaks which rule.
-/

namespace Scim.Validation

/-- What a value should have been. -/
inductive Expectation where
  /-- A resource. -/
  | resource
  /-- An array of values. -/
  | array
  /-- A single value of a type. -/
  | single (type : Attribute.ValueType)
  deriving DecidableEq, Repr

/-- A broken rule at a path. -/
inductive Error where
  | invalidType (path : String) (expected : Expectation)
  | required (path : String)
  | immutable (path : String)
  deriving DecidableEq, Repr

/-- The words for an expectation. -/
def Expectation.words : Expectation → String
  | resource => "a JSON object"
  | array => "an array"
  | single .string => "a string"
  | single .reference => "a reference string"
  | single .dateTime => "an RFC 3339 dateTime string"
  | single .boolean => "a boolean"
  | single .integer => "an integer"
  | single .decimal => "a number"
  | single .complex => "an object"

/-- The text of an error. -/
def Error.message : Error → String
  | invalidType path expected => s!"Attribute '{path}' must be {expected.words}"
  | required path => s!"Required attribute '{path}' is missing"
  | immutable path => s!"Attribute '{path}' is immutable and cannot be changed"

end Scim.Validation
