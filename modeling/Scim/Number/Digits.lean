/-!
# Digits

Runs of ASCII digits as natural numbers, and hexadecimal digits.  Leading zeros are allowed.
-/

namespace Scim.Digits

/-- The value of a decimal digit. -/
def value (c : Char) : Nat := c.toNat - '0'.toNat

/-- The value of a hexadecimal digit. -/
def hexValue? (c : Char) : Option Nat :=
  if c.isDigit then some (value c)
  else if 'a' ≤ c ∧ c ≤ 'f' then some (c.toNat - 'a'.toNat + 10)
  else if 'A' ≤ c ∧ c ≤ 'F' then some (c.toNat - 'A'.toNat + 10)
  else none

/-- The number that digits write. -/
def number (s : List Char) : Nat := s.foldl (fun n c => 10 * n + value c) 0

/-- The number of a text that is one or more digits. -/
def number? (s : List Char) : Option Nat :=
  if s.isEmpty || !s.all Char.isDigit then none else some (number s)

/-- The number of a text that is one or more digits behind an optional plus. -/
def unsigned? : List Char → Option Nat
  | '+' :: rest => number? rest
  | s => number? s

example : unsigned? ['+', '0', '7'] = some 7 ∧ unsigned? ['+'] = none := by decide

end Scim.Digits
