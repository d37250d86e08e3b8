/-!
# Finite double-precision numbers

A double is a sign, a mantissa below `2^53` and a power of two from `2^-1074` to `2^971`.  It is
kept in one form: either the mantissa has all 53 bits, or the power is the least one.  Infinities
and NaN do not occur in the data, so an operation that leaves the range gives nothing.

Every operation computes the exact quotient of two natural numbers and rounds it once, to the
nearest double and, at the midpoint, to the one with the even mantissa.

A decimal literal is evaluated the way a fast reader does it, by one multiplication or division:
its digits, as an integer rounded to a double, meet the double nearest the power of ten.  Powers
beyond `10^308` are divided out in steps.  The result can differ in its last bit from the double
nearest the literal.
-/

namespace Scim

/-- The number `mantissa · 2^exponent`, negated when `negative`. -/
structure Double where
  /-- Whether the sign is a minus. -/
  negative : Bool
  /-- The integer that the power of two scales. -/
  mantissa : Nat
  /-- The exponent of the power of two. -/
  exponent : Int
  deriving DecidableEq, Repr

namespace Double

/-- Zero, with a sign. -/
def zero (negative : Bool) : Double := ⟨negative, 0, -1074⟩

/-- Whether the number is zero of either sign. -/
def isZero (x : Double) : Bool := x.mantissa == 0

/-- Equality of numbers: the two zeros are equal. -/
def same (x y : Double) : Bool := (x.isZero && y.isZero) || x == y

/-! ## Rounding -/

/-- The fraction `num / den` times `2^k`, again as a fraction. -/
def shifted (num den : Nat) (k : Int) : Nat × Nat :=
  if 0 ≤ k then (num * Nat.pow 2 k.toNat, den) else (num, den * Nat.pow 2 (-k).toNat)

/-- The integer nearest to `num / den`, the even one at a midpoint. -/
def nearest (num den : Nat) : Nat :=
  let low := num / den
  let rest := 2 * (num % den)
  if den < rest ∨ (rest = den ∧ low % 2 = 1) then low + 1 else low

/-- The exponent at which `num / den` has a mantissa of 53 bits, or the least exponent. -/
def scaleOf (num den : Nat) : Int :=
  let guess : Int := num.log2 - den.log2 - 52
  let (n, d) := shifted num den (-guess)
  max (if n / d < 0x10000000000000 then guess - 1 else guess) (-1074)

/-- The double nearest to `num / den`, unless it is out of range. -/
def ofRatio? (negative : Bool) (num den : Nat) : Option Double :=
  if num = 0 then some (zero negative)
  else
    let e := scaleOf num den
    let (n, d) := shifted num den (-e)
    let m := nearest n d
    let x : Double := if m = 0x20000000000000 then ⟨negative, 0x10000000000000, e + 1⟩ else ⟨negative, m, e⟩
    if x.exponent ≤ 971 then some x else none

/-- The absolute value as a fraction. -/
def fraction (x : Double) : Nat × Nat := shifted x.mantissa 1 x.exponent

/-- The rounded product. -/
def mul? (x y : Double) : Option Double :=
  let (a, b) := x.fraction
  let (c, d) := y.fraction
  ofRatio? (x.negative != y.negative) (a * c) (b * d)

/-- The rounded quotient by a number other than zero. -/
def div? (x y : Double) : Option Double :=
  let (a, b) := x.fraction
  let (c, d) := y.fraction
  ofRatio? (x.negative != y.negative) (a * d) (b * c)

/-! ## Decimal literals -/

/-- The largest power of ten that is used as a factor. -/
def tenLimit : Nat := 308

/-- The double nearest `10^k`. -/
def tenTo? (k : Nat) : Option Double := ofRatio? false (Nat.pow 10 k) 1

/-- Divides by `10^308` the given number of times, or until nothing is left. -/
def shrink : Nat → Double → Option Double
  | 0, x => some x
  | n + 1, x =>
      if x.isZero then some x
      else do
        let y ← x.div? (← tenTo? tenLimit)
        shrink n y

/-- The value of the digits `significand` times `10^exponent`, unless it is out of range. -/
def ofDecimal? (negative : Bool) (significand : Nat) (exponent : Int) : Option Double := do
  let x ← ofRatio? negative significand 1
  if 0 ≤ exponent then
    if exponent ≤ tenLimit then x.mul? (← tenTo? exponent.toNat)
    else if x.isZero then some x
    else none
  else
    let k := (-exponent).toNat
    let steps := (k - 1) / tenLimit
    let y ← shrink steps x
    if y.isZero then some y else y.div? (← tenTo? (k - tenLimit * steps))

/-! ## Rounding at midpoints and at the ends of the range -/

example : nearest 5 2 = 2 ∧ nearest 7 2 = 4 := by decide

example : ofDecimal? false 15 (-1) = some ⟨false, 6755399441055744, -52⟩ := by decide +kernel

example : ofDecimal? false 1 308 ≠ none ∧ ofDecimal? false 1 309 = none := by decide +kernel

end Double

end Scim
