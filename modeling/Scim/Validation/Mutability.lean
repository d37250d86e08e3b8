import Scim.Evaluation.Presence
import Scim.Resource
import Scim.Validation.Error
import Scim.Walk.Paired

/-!
# Enforcement of mutability

A resource that a client sends is walked beside the stored version.

* A read-only attribute gets its stored value, or none if there is none.  A value that is equal
  to the stored one is left as it is written.
* An immutable attribute that has a stored value must be sent with the same value.
* Other attributes are as the client sends them.

Without a stored version read-only attributes are dropped.
-/

namespace Scim.Validation

/-- Whether an immutable attribute differs from its assigned stored value. -/
def isChanged (a : Attribute) (stored : Option Json) (v : Json) : Bool :=
  match stored with
  | some s => a.isAssigned s && (!a.isAssigned v || v != s)
  | none => false

/-- Enforces the mutability of what is visited. -/
def visitMutability (visit : Walk.Visit (Option Json)) (v : Json) :
    Id (Json × Except Error Walk.Flow) :=
  let a := visit.descriptor
  match a.mutability with
  | .readOnly =>
      let stored := visit.content.getD .null
      (if v == stored then v else stored, .ok .skip)
  | .immutable =>
      if isChanged a visit.content v then (v, .error (.immutable visit.path)) else (v, .ok .goOn)
  | .readWrite | .writeOnly => (v, .ok .goOn)

/-- The enforcement as a walk. -/
def mutabilityEditor : Walk.Editor Id Error := ⟨visitMutability, Walk.pairsByKey⟩

/-- Enforces mutability against a stored version, if there is one. -/
def enforceMutability (schema : Schema) (stored : Option Resource) (r : Resource) :
    Walk.Edited Error Resource :=
  let edited := (mutabilityEditor.through schema (stored.map (·.members)) r.members).run
  ⟨⟨edited.value⟩, edited.result⟩

end Scim.Validation
