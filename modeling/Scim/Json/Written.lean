import Scim.Json.Members

/-!
# Values as they are written

A text can be well formed and still hold parts that no value stands for: a number out of range, a
string with half of a surrogate pair, an object with such a key, and containers nested too deep.
A *written value* keeps such a part as `unreadable`, so that it does no harm where nobody reads
it.  It also keeps every member of an object in its place, so that a repeated key is still seen.

`Written.json?` is the value of a written value without unreadable parts: the members of every
object come in order, and of those with one key the last one counts.  `Json.written` goes the
other way.
-/

namespace Scim.Json

/-- A value as it is written. -/
inductive Written where
  | null
  | bool (value : Bool)
  | number (value : Json.Number)
  | string (value : String)
  | array (items : List Written)
  | object (members : List (String × Written))
  /-- A part that no value stands for. -/
  | unreadable

namespace Written

mutual

/-- The value, unless a part of it is unreadable. -/
def json? : Written → Option Json
  | .null => some .null
  | .bool b => some (.bool b)
  | .number n => some (.number n)
  | .string s => some (.string s)
  | .array items => (jsonItems? items).map .array
  | .object members => (jsonPairs? members).map fun pairs => .object (Members.ofPairs pairs)
  | .unreadable => none
termination_by structural v => v

/-- The values of items. -/
def jsonItems? : List Written → Option (List Json)
  | [] => some []
  | v :: rest => do
      let item ← json? v
      let items ← jsonItems? rest
      some (item :: items)
termination_by structural vs => vs

/-- The values of members, with their keys. -/
def jsonPairs? : List (String × Written) → Option (List (String × Json))
  | [] => some []
  | (k, v) :: rest => do
      let value ← json? v
      let pairs ← jsonPairs? rest
      some ((k, value) :: pairs)
termination_by structural ms => ms

end

/-- The text of a string. -/
def string? : Written → Option String
  | .string s => some s
  | _ => none

/-- The value of a truth value. -/
def bool? : Written → Option Bool
  | .bool b => some b
  | _ => none

end Written

mutual

/-- A value as it can be written. -/
def written : Json → Written
  | .null => .null
  | .bool b => .bool b
  | .number n => .number n
  | .string s => .string s
  | .array items => .array (writtenItems items)
  | .object members => .object (writtenMembers members)
termination_by structural v => v

/-- Items as they can be written. -/
def writtenItems : List Json → List Written
  | [] => []
  | v :: rest => written v :: writtenItems rest
termination_by structural vs => vs

/-- Members as they can be written. -/
def writtenMembers : List (String × Json) → List (String × Written)
  | [] => []
  | (k, v) :: rest => (k, written v) :: writtenMembers rest
termination_by structural ms => ms

end

/-! ## What is read of an object -/

example : (Written.object [("b", .null), ("a", .bool true), ("b", .bool false)]).json? =
    some (.object [("a", .bool true), ("b", .bool false)]) := by rfl

example : (Written.array [.null, .unreadable]).json?.isNone := by rfl

end Scim.Json
