import Scim.Filter.Parser
import Scim.Json.Record

/-!
# Limits

How large the inputs may be that a service accepts.
-/

namespace Scim

open Json (Written)

/-- The limits of a service. -/
structure Limits where
  /-- The greatest length of a filter in bytes. -/
  maxFilterLength : Nat := Filter.defaultMaxLength
  /-- The greatest number of operations in a request. -/
  maxPatchOperations : Nat := 1000
  deriving DecidableEq, Repr

namespace Limits

/-- The names of the fields. -/
def fieldNames : List String := ["max_filter_length", "max_patch_operations"]

/-- Decodes limits, which have no other fields. -/
def ofWritten? (v : Written) : Option Limits := do
  if !Written.hasOnlyFields fieldNames v then none
  else
    match ← Written.fields? fieldNames v with
    | [maxFilterLength, maxPatchOperations] =>
        let defaults : Limits := {}
        some {
          maxFilterLength :=
            ← Written.optional? Written.count? defaults.maxFilterLength maxFilterLength
          maxPatchOperations :=
            ← Written.optional? Written.count? defaults.maxPatchOperations maxPatchOperations }
    | _ => none

end Limits

end Scim
