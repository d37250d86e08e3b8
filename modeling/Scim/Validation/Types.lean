import Scim.Resource
import Scim.Validation.Error
import Scim.Walk.Single

/-!
# Validation of types

Every value has the type of its attribute, or is `null`.  A multi-valued attribute has an array;
its elements are single values.  The first value that breaks the rule is reported, an array
before its elements.
-/

namespace Scim.Validation

/-- Whether a value is a date-time. -/
def isDateTime : Json → Bool
  | .string s => (Instant.ofStrict? s.toList).isSome
  | _ => false

/-- Whether a value is an integer. -/
def isInteger : Json → Bool
  | .number (.integer _) => true
  | _ => false

/-- Whether a value is a number. -/
def isNumber : Json → Bool
  | .number _ => true
  | _ => false

/-- Whether a value has the form of a single value of a type. -/
def hasType (type : Attribute.ValueType) (v : Json) : Bool :=
  match type with
  | .string | .reference => v.string?.isSome
  | .dateTime => isDateTime v
  | .boolean => v.bool?.isSome
  | .integer => isInteger v
  | .decimal => isNumber v
  | .complex => v.object?.isSome

/-- What a value should have been, if it is not `null` and breaks the rule. -/
def unmet? (a : Attribute) (v : Json) : Option Expectation :=
  if v.isNull then none
  else if a.multiValued then if v.array?.isSome then none else some .array
  else if hasType a.type v then none
  else some (.single a.type)

/-- Checks the type of what is visited. -/
def visitType : Walk.Visitor (Except Error) := fun visit =>
  match unmet? visit.descriptor visit.content with
  | some expected => .error (.invalidType visit.path expected)
  | none => .ok .goOn

/-- Checks the types of the values of a resource. -/
def checkTypes (schema : Schema) (r : Resource) : Except Error Unit :=
  Walk.through visitType schema r.members

/-- A resource from its value, which has to be an object. -/
def resource (v : Json) : Except Error Resource :=
  match v with
  | .object members => .ok ⟨members⟩
  | _ => .error (.invalidType "(resource)" .resource)

end Scim.Validation
