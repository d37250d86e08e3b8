import Scim.Json.Written

/-!
# Records in JSON

A record is written as an object with named fields, or as an array of its fields in order.  In
an object other members are ignored, whatever they hold, and a field must not occur twice.  An
array may stop early, and then the missing fields are absent; it must not hold more than the
record has.

A choice is written as its name, or as an object whose only member has that name and the value
`null`.  Names are exact.

Records are decoded from written values, which still show a field that occurs twice and keep what
is ignored apart from what is read.
-/

namespace Scim.Json.Written

/-- The field of a name among the members, unless it occurs twice. -/
def field? (members : List (String × Written)) (name : String) : Option (Option Written) :=
  match members.filter (·.1 == name) with
  | [] => some none
  | [(_, v)] => some (some v)
  | _ => none

/-- The fields of a record, in the order of the names. -/
def fields? (names : List String) : Written → Option (List (Option Written))
  | .object members => names.mapM (field? members)
  | .array items =>
      if names.length < items.length then none
      else some (items.map some ++ List.replicate (names.length - items.length) none)
  | _ => none

/-- Whether every member of a record in object form is one of its fields. -/
def hasOnlyFields (names : List String) : Written → Bool
  | .object members => members.all fun m => names.contains m.1
  | _ => true

/-- A field that must be there. -/
def required? {α : Type} (decode : Written → Option α) : Option Written → Option α
  | some v => decode v
  | none => none

/-- A field with a default. -/
def optional? {α : Type} (decode : Written → Option α) (default : α) : Option Written → Option α
  | some v => decode v
  | none => some default

/-- A field that may be absent or `null`. -/
def nullable? {α : Type} (decode : Written → Option α) : Option Written → Option (Option α)
  | none => some none
  | some .null => some none
  | some v => (decode v).map some

/-- The items of an array, each decoded. -/
def list? {α : Type} (decode : Written → Option α) : Written → Option (List α)
  | .array items => items.mapM decode
  | _ => none

/-- A count below `2^64`. -/
def count? : Written → Option Nat
  | .number (.integer i) => if 0 ≤ i then some i.toNat else none
  | _ => none

/-- A choice between names. -/
def choice? {α : Type} (names : List (String × α)) : Written → Option α
  | .string s => names.lookup s
  | .object [(s, .null)] => names.lookup s
  | _ => none

end Scim.Json.Written
