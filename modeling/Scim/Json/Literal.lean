import Scim.Json.Basic
import Scim.Number.Digits

/-!
# Number literals

A literal is an optional minus, an integer without needless zeros, an optional fraction and an
optional exponent.  Without fraction and exponent it is an integer if it fits, from `-2^63` to
`2^64 - 1`.  The literal `-0` is a double.

The digits of a double are gathered into a 64-bit integer.  From the first digit of the integer
part that does not fit on, digits are counted into the exponent; from the first digit of the
fraction that does not fit on, they are dropped.
-/

namespace Scim.Json

/-- The parts of a number literal. -/
structure Literal where
  /-- Whether a minus comes first. -/
  negative : Bool
  /-- The digits of the integer part. -/
  whole : List Char
  /-- The digits of the fraction, if there is one. -/
  fraction : Option (List Char)
  /-- The sign and the digits of the exponent, if there is one. -/
  exponent : Option (Bool × List Char)

namespace Literal

/-- Digits may form an integer part: at least one, and no zero before others. -/
def isWhole : List Char → Bool
  | [] => false
  | ['0'] => true
  | d :: rest => d != '0' && (d :: rest).all Char.isDigit

/-- The exponent after its letter. -/
def exponent? (s : List Char) : Option (Bool × List Char) :=
  let (negative, digits) := match s with
    | '-' :: rest => (true, rest)
    | '+' :: rest => (false, rest)
    | rest => (false, rest)
  if digits.isEmpty || !digits.all Char.isDigit then none else some (negative, digits)

/-- Reads an unsigned literal after its integer part. -/
def ofTail? (negative : Bool) (whole : List Char) (s : List Char) : Option Literal :=
  let (fraction, s) := match s with
    | '.' :: rest => (some (rest.takeWhile Char.isDigit), rest.dropWhile Char.isDigit)
    | rest => (none, rest)
  if fraction = some [] then none
  else
    match s with
    | [] => some ⟨negative, whole, fraction, none⟩
    | c :: rest =>
        if c = 'e' ∨ c = 'E' then
          (exponent? rest).map fun e => ⟨negative, whole, fraction, some e⟩
        else none

/-- Reads a literal. -/
def ofText? (s : List Char) : Option Literal :=
  let (negative, s) := match s with
    | '-' :: rest => (true, rest)
    | rest => (false, rest)
  let whole := s.takeWhile Char.isDigit
  if isWhole whole then ofTail? negative whole (s.dropWhile Char.isDigit) else none

/-- Appends digits to a 64-bit integer while they fit; the rest of the digits is left over. -/
def gather (n : Nat) : List Char → Nat × List Char
  | [] => (n, [])
  | d :: ds =>
      let m := 10 * n + Digits.value d
      if m < 0x10000000000000000 then gather m ds else (n, d :: ds)

/-- The double of a literal, unless it is out of range. -/
def double? (l : Literal) : Option Double :=
  let (n, counted) := gather 0 l.whole
  let fraction := l.fraction.getD []
  let (n, dropped) := gather n fraction
  let shift : Int := counted.length - (fraction.length - dropped.length : Nat)
  let exponent : Int := match l.exponent with
    | none => 0
    | some (negative, digits) => if negative then -Digits.number digits else Digits.number digits
  Double.ofDecimal? l.negative n (shift + exponent)

/-- The number of a literal, unless it is out of range. -/
def number? (l : Literal) : Option Number :=
  let n := Digits.number l.whole
  if l.fraction.isNone && l.exponent.isNone then
    if !l.negative && n < 0x10000000000000000 then some (.integer n)
    else if l.negative && 0 < n && n ≤ 0x8000000000000000 then some (.integer (-n))
    else l.double?.map .float
  else l.double?.map .float

end Literal

/-- Reads a number literal. -/
def Number.ofText? (s : List Char) : Option Number := do (← Literal.ofText? s).number?

/-! ## The ends of the integers -/

example : Number.ofText? ['-', '0'] = some (.float (.zero true)) := by decide +kernel

example : Number.ofText? ['0', '1'] = none ∧ Number.ofText? ['1', '.'] = none := by decide

end Scim.Json
