import Scim.Number.Decimal
import Scim.Text.Folding

/-!
# Constants of the filter language

A word of a filter is a constant if it is a string between quotes, one of the names `true`,
`false` and `null` in any case, an integer of 64 bits with an optional sign, or a decimal.  They
are tried in this order, so a number that does not fit in 64 bits is a decimal.  A word without
an ASCII digit is never a number.

Within quotes a backslash makes `n`, `t` and `r` stand for the control characters of those names
and any other character stand for itself.  A backslash at the end stands for itself.
-/

namespace Scim.Filter

/-- A value to compare with. -/
inductive Constant where
  | string (value : String)
  | boolean (value : Bool)
  | null
  | integer (value : Int)
  | decimal (value : Decimal)
  deriving DecidableEq, Repr

namespace Constant

/-- The character that a character after a backslash stands for. -/
def escaped (c : Char) : Char :=
  if c = 'n' then '\n' else if c = 't' then '\t' else if c = 'r' then '\r' else c

/-- The text between quotes with its escapes resolved. -/
def unescape : List Char → List Char
  | [] => []
  | ['\\'] => ['\\']
  | '\\' :: c :: rest => escaped c :: unescape rest
  | c :: rest => c :: unescape rest

/-- What stands between the quotes of a quoted word. -/
def unquoted? : List Char → Option (List Char)
  | '"' :: rest => if rest.getLast? = some '"' then some rest.dropLast else none
  | _ => none

/-- An integer of 64 bits with an optional sign. -/
def int64? (word : List Char) : Option Int := do
  let (negative, digits) := match word with
    | '-' :: rest => (true, rest)
    | '+' :: rest => (false, rest)
    | rest => (false, rest)
  let n ← Digits.number? digits
  let i : Int := if negative then -n else n
  if -0x8000000000000000 ≤ i ∧ i < 0x8000000000000000 then some i else none

/-- A number, if the word has a digit. -/
def number? (word : List Char) : Option Constant :=
  match int64? word with
  | some i => some (.integer i)
  | none => if word.any Char.isDigit then (Decimal.ofText? word).map .decimal else none

/-- The constant that a word is. -/
def ofWord? (word : String) : Option Constant :=
  match unquoted? word.toList with
  | some inner => some (.string (String.ofList (unescape inner)))
  | none =>
      if Text.alike word "true" then some (.boolean true)
      else if Text.alike word "false" then some (.boolean false)
      else if Text.alike word "null" then some .null
      else number? word.toList

/-- The word for the kind of a constant. -/
def kindName : Constant → String
  | string _ => "string"
  | boolean _ => "boolean"
  | null => "null"
  | integer _ => "integer"
  | decimal _ => "decimal"

end Constant

end Scim.Filter
