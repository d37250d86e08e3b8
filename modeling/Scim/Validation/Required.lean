import Scim.Evaluation.Presence
import Scim.Resource
import Scim.Validation.Error
import Scim.Walk.Single

/-!
# Validation of required attributes

A required attribute has a value wherever the object around it is there.  Attributes that only
the server sets cannot be demanded, nor what is below them.
-/

namespace Scim.Validation

/-- Checks that what is visited is assigned if it is required. -/
def visitRequired : Walk.Visitor (Except Error) := fun visit =>
  let a := visit.descriptor
  if a.mutability = .readOnly then .ok .skip
  else if a.required && !a.isAssigned visit.content then .error (.required visit.path)
  else .ok .goOn

/-- Checks that the required attributes of a resource are assigned. -/
def checkRequired (schema : Schema) (r : Resource) : Except Error Unit :=
  Walk.through visitRequired schema r.members

end Scim.Validation
