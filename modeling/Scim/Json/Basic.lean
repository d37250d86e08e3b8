import Scim.Number.Double

/-!
# JSON values

A resource, a patch value and a schema are JSON values.  An object is a list of members; the
functions of `Scim.Json.Members` keep that list in strictly increasing order of its keys, so an
object has no order of its own and no key twice.

Numbers come in two kinds.  A literal without fraction and exponent that fits in 64 bits is an
integer, every other literal is a double.  Equality keeps the kinds apart, `1` and `1.0` differ,
and within a kind it is equality of numbers, so `0.0` and `-0.0` are equal.  Sameness, where these
two are told apart, is decidable as well (`Json.isSame`).
-/

namespace Scim

/-- A JSON number. -/
inductive Json.Number where
  /-- An integer from `-2^63` to `2^64 - 1`. -/
  | integer (value : Int)
  /-- A number written with a fraction or an exponent, or too large for an integer. -/
  | float (value : Double)
  deriving DecidableEq, Repr

/-- A JSON value. -/
inductive Json where
  | null
  | bool (value : Bool)
  | number (value : Json.Number)
  | string (value : String)
  | array (items : List Json)
  | object (members : List (String × Json))

instance : Inhabited Json := ⟨.null⟩

/-- The members of an object. -/
abbrev Members := List (String × Json)

namespace Json

/-! ## Equality -/

/-- Equality of numbers of the same kind. -/
def Number.same : Number → Number → Bool
  | .integer a, .integer b => a == b
  | .float a, .float b => a.same b
  | _, _ => false

mutual

/-- Whether two values are equal. -/
def same : Json → Json → Bool
  | .null, .null => true
  | .bool a, .bool b => a == b
  | .number a, .number b => a.same b
  | .string a, .string b => a == b
  | .array a, .array b => sameItems a b
  | .object a, .object b => sameMembers a b
  | _, _ => false
termination_by structural x => x

/-- Whether two lists of items are equal item by item. -/
def sameItems : List Json → List Json → Bool
  | [], [] => true
  | a :: as, b :: bs => same a b && sameItems as bs
  | _, _ => false
termination_by structural x => x

/-- Whether two lists of members are equal member by member. -/
def sameMembers : List (String × Json) → List (String × Json) → Bool
  | [], [] => true
  | (k, a) :: as, (l, b) :: bs => k == l && same a b && sameMembers as bs
  | _, _ => false
termination_by structural x => x

end

instance : BEq Json := ⟨same⟩

/-! ## Sameness -/

mutual

/-- Whether two values are the same, where zeros are told apart. -/
def isSame : Json → Json → Bool
  | .null, .null => true
  | .bool a, .bool b => a == b
  | .number a, .number b => a == b
  | .string a, .string b => a == b
  | .array a, .array b => areSame a b
  | .object a, .object b => areMembersSame a b
  | _, _ => false
termination_by structural x => x

/-- Whether two lists have the same items. -/
def areSame : List Json → List Json → Bool
  | [], [] => true
  | a :: as, b :: bs => isSame a b && areSame as bs
  | _, _ => false
termination_by structural x => x

/-- Whether two lists have the same members. -/
def areMembersSame : List (String × Json) → List (String × Json) → Bool
  | [], [] => true
  | (k, a) :: as, (l, b) :: bs => k == l && isSame a b && areMembersSame as bs
  | _, _ => false
termination_by structural x => x

end

mutual

theorem isSame_iff : ∀ v w : Json, isSame v w = true ↔ v = w
  | .null, w | .bool _, w | .number _, w | .string _, w => by cases w <;> simp [isSame]
  | .array items, w => by cases w <;> simp [isSame, areSame_iff items]
  | .object members, w => by cases w <;> simp [isSame, areMembersSame_iff members]
termination_by structural v => v

theorem areSame_iff : ∀ items others : List Json, areSame items others = true ↔ items = others
  | [], others => by cases others <;> simp [areSame]
  | v :: rest, others => by cases others <;> simp [areSame, isSame_iff v, areSame_iff rest]
termination_by structural items => items

theorem areMembersSame_iff : ∀ members others : List (String × Json),
    areMembersSame members others = true ↔ members = others
  | [], others => by cases others <;> simp [areMembersSame]
  | (k, v) :: rest, others => by
      cases others <;>
        simp [areMembersSame, isSame_iff v, areMembersSame_iff rest, and_assoc, Prod.ext_iff]
termination_by structural members => members

end

instance : DecidableEq Json := fun v w => decidable_of_iff _ (isSame_iff v w)

/-! ## Views -/

/-- Whether the value is `null`. -/
def isNull : Json → Bool
  | .null => true
  | _ => false

/-- The text of a string. -/
def string? : Json → Option String
  | .string s => some s
  | _ => none

/-- The items of an array. -/
def array? : Json → Option (List Json)
  | .array items => some items
  | _ => none

/-- The members of an object. -/
def object? : Json → Option Members
  | .object members => some members
  | _ => none

/-- The value of a truth value. -/
def bool? : Json → Option Bool
  | .bool b => some b
  | _ => none

/-- An integer that fits in 64 bits with a sign. -/
def Number.int64? : Number → Option Int
  | .integer i => if -0x8000000000000000 ≤ i ∧ i < 0x8000000000000000 then some i else none
  | .float _ => none

/-- The word for the kind of a value. -/
def kindName : Json → String
  | .null => "null"
  | .bool _ => "boolean"
  | .number _ => "number"
  | .string _ => "string"
  | .array _ => "array"
  | .object _ => "object"

end Json

end Scim
