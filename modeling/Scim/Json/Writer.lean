import Scim.Json.Basic
import Scim.Number.Shortest

/-!
# Writing JSON text

Strings are written as they are, except that the quote, the backslash and the control characters
are escaped, with the short escape where there is one.  There are two layouts.  The compact one
has no white space.  The indented one puts every item and every member on a line of its own, two
spaces further in than its container, and writes an empty container as a pair of brackets.
-/

namespace Scim.Json

/-- A digit of the escape of a control character. -/
def hexDigit (n : Nat) : Char := Nat.digitChar n

/-- One character of a string. -/
def escape (c : Char) : List Char :=
  if c = '"' then ['\\', '"']
  else if c = '\\' then ['\\', '\\']
  else if c = '\n' then ['\\', 'n']
  else if c = '\r' then ['\\', 'r']
  else if c = '\t' then ['\\', 't']
  else if c = '\x08' then ['\\', 'b']
  else if c = '\x0c' then ['\\', 'f']
  else if c.toNat < 0x20 then
    ['\\', 'u', '0', '0', hexDigit (c.toNat / 16), hexDigit (c.toNat % 16)]
  else [c]

/-- A string between quotes. -/
def quoted (s : String) : String := String.ofList ('"' :: s.toList.flatMap escape ++ ['"'])

/-- A number as text. -/
def Number.text : Number → String
  | .integer i => String.ofList ((if i < 0 then ['-'] else []) ++ Nat.toDigits 10 i.natAbs)
  | .float x => x.text

/-! ## The compact layout -/

mutual

/-- A value without white space. -/
def compact : Json → String
  | .null => "null"
  | .bool b => if b then "true" else "false"
  | .number n => n.text
  | .string s => quoted s
  | .array items => "[" ++ compactItems items ++ "]"
  | .object members => "\x7b" ++ compactMembers members ++ "\x7d"
termination_by structural x => x

/-- Items with commas between them. -/
def compactItems : List Json → String
  | [] => ""
  | [v] => compact v
  | v :: rest => compact v ++ "," ++ compactItems rest
termination_by structural x => x

/-- Members with commas between them. -/
def compactMembers : List (String × Json) → String
  | [] => ""
  | [(k, v)] => quoted k ++ ":" ++ compact v
  | (k, v) :: rest => quoted k ++ ":" ++ compact v ++ "," ++ compactMembers rest
termination_by structural x => x

end

/-! ## The indented layout -/

/-- A new line at a depth. -/
def newLine (depth : Nat) : String := String.ofList ('\n' :: List.replicate (2 * depth) ' ')

mutual

/-- A value laid out at a depth. -/
def indented (depth : Nat) : Json → String
  | .array [] => "[]"
  | .array (v :: rest) =>
      "[" ++ newLine (depth + 1) ++ indented (depth + 1) v ++ indentedItems (depth + 1) rest ++
        newLine depth ++ "]"
  | .object [] => "\x7b\x7d"
  | .object ((k, v) :: rest) =>
      "\x7b" ++ newLine (depth + 1) ++ quoted k ++ ": " ++ indented (depth + 1) v ++
        indentedMembers (depth + 1) rest ++ newLine depth ++ "\x7d"
  | .null => "null"
  | .bool b => if b then "true" else "false"
  | .number n => n.text
  | .string s => quoted s
termination_by structural x => x

/-- Further items, each after a comma. -/
def indentedItems (depth : Nat) : List Json → String
  | [] => ""
  | v :: rest => "," ++ newLine depth ++ indented depth v ++ indentedItems depth rest
termination_by structural x => x

/-- Further members, each after a comma. -/
def indentedMembers (depth : Nat) : List (String × Json) → String
  | [] => ""
  | (k, v) :: rest =>
      "," ++ newLine depth ++ quoted k ++ ": " ++ indented depth v ++ indentedMembers depth rest
termination_by structural x => x

end

/-- A value on several lines. -/
def pretty (v : Json) : String := indented 0 v

end Scim.Json
