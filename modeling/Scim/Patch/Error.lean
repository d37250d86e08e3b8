import Scim.Path.Error

/-!
# Errors in a change request

A request is refused as a whole, or one of its operations fails.  The error of an operation says
which operation it was and holds the cause.
-/

namespace Scim.Patch

/-- What an operation does. -/
inductive Verb where
  | add
  | remove
  | replace
  deriving DecidableEq, Repr

/-- The word for a verb. -/
def Verb.word : Verb → String
  | add => "add"
  | remove => "remove"
  | replace => "replace"

/-- Why a value does not suit an operation. -/
inductive Fault where
  /-- An operation without a path needs an object. -/
  | pathlessNeedsObject (verb : Verb)
  /-- An addition to a complex attribute needs an object. -/
  | complexNeedsObject (attributeName : String)
  /-- Selected elements cannot be added to. -/
  | addToSelection
  deriving DecidableEq, Repr

/-- Why a request fails. -/
inductive Error where
  /-- The request does not declare the schema of requests and nothing else. -/
  | invalidSchema
  | tooManyOperations (count max : Nat)
  | invalidModification (fault : Fault)
  | path (cause : Path.Error)
  /-- There is nothing at the path. -/
  | noTarget (path : String)
  /-- An operation fails. -/
  | operation (index : Nat) (cause : Error)
  /-- The change itself fails. -/
  | failed (reason : String)
  deriving DecidableEq, Repr

/-- The text of a fault. -/
def Fault.message : Fault → String
  | pathlessNeedsObject verb => s!"{verb.word} without a path requires an object value"
  | complexNeedsObject name => s!"complex attribute '{name}' requires an object value"
  | addToSelection => "add is not allowed on a filtered multi-valued attribute"

namespace Error

/-- The text of an error. -/
def message : Error → String
  | invalidSchema => "Request must declare exactly the PatchOp schema"
  | tooManyOperations count max => s!"Request has {count} operations (max {max})"
  | invalidModification fault => s!"Invalid modification: {fault.message}"
  | path cause => cause.message
  | noTarget p => s!"No target matches path '{p}'"
  | operation index cause => s!"Invalid operation at index {index}: {cause.message}"
  | failed reason => s!"Modification failed: {reason}"

/-- The error without the operations it occurred in. -/
def rootCause : Error → Error
  | operation _ cause => cause.rootCause
  | e => e

end Error

end Scim.Patch
