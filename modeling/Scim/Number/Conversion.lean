import Scim.Number.Decimal
import Scim.Number.Double
import Scim.Number.Shortest

/-!
# Doubles as decimals

A double converts through its written form, so that the decimal has the digits that a reader of
the text sees.  Two kinds of doubles have a written form that is no decimal.

* Doubles of `2^96` and more are too large, and do not convert.
* Doubles below `10^-28` lose digits from the end, each rounding the one before it, until the
  place of `10^-28` is the last.  One whose digits all lie behind that place is zero.
-/

namespace Scim.Decimal

/-- Drops the last digit and rounds the one before it, a five upward. -/
def dropDigit (n : Nat) : Nat := n / 10 + if 5 ≤ n % 10 then 1 else 0

/-- Drops digits from the end.  A digit that stands alone rounds nothing. -/
def dropDigits : Nat → Nat → Nat
  | 0, n => n
  | k + 1, n => if n < 10 then 0 else dropDigits k (dropDigit n)

/-- Converts a double below `10^-28`, and gives nothing for a large one. -/
def ofTiny? (x : Double) : Option Decimal :=
  let (digits, exponent) := x.shortest
  if 0 ≤ exponent then none
  else some (ofParts x.negative (dropDigits (-exponent - maxScale).toNat digits) maxScale)

/-- The decimal with the digits of a double, as far as it can hold them. -/
def ofDouble? (x : Double) : Option Decimal := ofText? x.text.toList <|> ofTiny? x

/-! ## Digits in front of the last place -/

example : dropDigits 2 95 = 1 ∧ dropDigits 1 6 = 0 := by decide

end Scim.Decimal
