import Scim.Number.Digits

/-!
# Decimal numbers of 96 bits

A decimal is an integer below `2^96` divided by a power of ten, `10^0` to `10^28`.  It keeps the
number of its fraction digits: `1.50` and `1.5` are equal and are written differently.

`Decimal.ofPlain?` reads digits with at most one point.  An underscore may stand anywhere after
the first digit.  Reading ends early in two cases, and then the next character alone decides the
rounding, a digit of five or more upward, and only digits and underscores may come after it.

* 28 fraction digits have been read and more text follows.
* The next fraction digit would take the integer to `2^96`.

An underscore in the deciding place of the first case counts as a digit below five while the
integer is short.  Once it is long, underscores are passed over there, and the digit behind them
decides.

A digit of the integer part that does not fit makes the text no decimal at all.

`Decimal.ofScientific?` reads a plain decimal, the letter `e` and an exponent.  A negative
exponent of up to 28 adds fraction digits, and those past the 28th are rounded away, a half away
from zero.  A positive exponent takes fraction digits away or multiplies.
-/

namespace Scim

/-- The number `mantissa / 10^scale`, negated when `negative`. -/
structure Decimal where
  /-- Whether the sign is a minus. -/
  negative : Bool
  /-- The digits, as an integer. -/
  mantissa : Nat
  /-- The number of fraction digits. -/
  scale : Nat
  deriving DecidableEq, Repr

namespace Decimal

/-- The bound of the mantissa.  It is irreducible so that a comparison with it is not unfolded
digit by digit. -/
@[irreducible] def bound : Nat := 0x1000000000000000000000000

/-- The most fraction digits. -/
def maxScale : Nat := 28

/-- The bound of a short integer: one more digit and a small margin stay below `2^64`. -/
def shortBound : Nat := (0x10000000000000000 - 1) / 10 - 255

/-- A decimal from its parts.  Zero has no sign. -/
def ofParts (negative : Bool) (mantissa scale : Nat) : Decimal :=
  ⟨negative && mantissa != 0, mantissa, scale⟩

/-- An integer as a decimal. -/
def ofInt (i : Int) : Decimal := ⟨decide (i < 0), i.natAbs, 0⟩

/-- The mantissa with its sign. -/
def signed (d : Decimal) : Int := if d.negative then -(d.mantissa : Int) else d.mantissa

/-- The order of the numbers, whatever their scales. -/
def compare (a b : Decimal) : Ordering :=
  Ord.compare (a.signed * Nat.pow 10 b.scale) (b.signed * Nat.pow 10 a.scale)

/-- The written form, with all its fraction digits and never with an exponent. -/
def text (d : Decimal) : String :=
  let digits := Nat.toDigits 10 d.mantissa
  let padded := List.replicate (d.scale + 1 - digits.length) '0' ++ digits
  let whole := padded.length - d.scale
  let fraction := if d.scale = 0 then [] else '.' :: padded.drop whole
  String.ofList ((if d.negative then ['-'] else []) ++ padded.take whole ++ fraction)

/-! ## Plain decimals -/

/-- What has been read of a plain decimal. -/
structure Reading where
  /-- The digits so far. -/
  mantissa : Nat := 0
  /-- How many of them follow the point. -/
  scale : Nat := 0
  /-- Whether the point has been passed. -/
  point : Bool := false
  /-- Whether a digit has been seen. -/
  started : Bool := false
  /-- Whether the digits make a long integer, leading zeros not counted. -/
  long : Bool := false

/-- Adds a digit. -/
def Reading.push (r : Reading) (c : Char) : Reading :=
  { r with
    mantissa := 10 * r.mantissa + Digits.value c
    scale := if r.point then r.scale + 1 else 0
    started := true
    long := r.long || shortBound ≤ 10 * r.mantissa + Digits.value c }

/-- Ends the reading in front of a character that rounds it and the text behind that. -/
def Reading.roundOff (r : Reading) (next : Char) (rest : List Char) : Option Reading :=
  if !rest.all (fun c => c.isDigit || c == '_') then none
  else if next.isDigit then
    if Digits.value next < 5 then some r
    else if r.mantissa + 1 < bound then some { r with mantissa := r.mantissa + 1 }
    else if r.scale = 0 then none
    else some { r with mantissa := (r.mantissa + 5) / 10, scale := r.scale - 1 }
  else if next = '_' ∨ (next = '.' ∧ r.point) then some r
  else none

/-- Reads on until the text or the precision ends. -/
def Reading.run (r : Reading) : List Char → Option Reading
  | [] => some r
  | c :: rest =>
      if c.isDigit then
        let r' := r.push c
        if bound ≤ r'.mantissa ∨ maxScale ≤ r.scale then
          if r.point then r.roundOff c rest else none
        else if r.point ∧ maxScale ≤ r'.scale then
          match rest with
          | [] => some r'
          | next :: rest => if next = '_' ∧ r.long then r'.run rest else r'.roundOff next rest
        else r'.run rest
      else if c = '.' ∧ !r.point then Reading.run { r with point := true } rest
      else if c = '_' ∧ r.started then r.run rest
      else none

/-- Reads an unsigned plain decimal and gives it a sign. -/
def ofDigits? (negative : Bool) (s : List Char) : Option Decimal :=
  match Reading.run {} s with
  | some r => if r.started then some (ofParts negative r.mantissa r.scale) else none
  | none => none

/-- Reads a plain decimal with an optional sign. -/
def ofPlain? : List Char → Option Decimal
  | '-' :: rest => ofDigits? true rest
  | '+' :: rest => ofDigits? false rest
  | s => ofDigits? false s

/-! ## Scientific notation -/

/-- A decimal times `10^-n`.  A sign stays even when nothing else is left. -/
def scaledDown? (d : Decimal) (n : Nat) : Option Decimal :=
  if maxScale < n then none
  else if d.scale + n ≤ maxScale then some { d with scale := d.scale + n }
  else
    let unit := Nat.pow 10 (d.scale + n - maxScale)
    some { d with mantissa := (d.mantissa + unit / 2) / unit, scale := maxScale }

/-- A decimal times `10^n`. -/
def scaledUp? (d : Decimal) (n : Nat) : Option Decimal :=
  if n ≤ d.scale then some { d with scale := d.scale - n }
  else if maxScale < n then none
  else
    let m := d.mantissa * Nat.pow 10 (n - d.scale)
    if m < bound then some { d with mantissa := m, scale := 0 } else none

/-- Reads a plain decimal, the letter `e` and an exponent. -/
def ofScientific? (s : List Char) : Option Decimal :=
  let isMark (c : Char) : Bool := c == 'e' || c == 'E'
  let base := s.takeWhile (!isMark ·)
  match s.dropWhile (!isMark ·) with
  | [] => none
  | _ :: exponent => do
      let d ← ofPlain? base
      match exponent with
      | '-' :: rest => d.scaledDown? (← Digits.unsigned? rest)
      | _ => d.scaledUp? (← Digits.unsigned? exponent)

/-- Reads a decimal in plain notation, else in scientific notation. -/
def ofText? (s : List Char) : Option Decimal := ofPlain? s <|> ofScientific? s

/-! ## Where reading ends early -/

example : ofText? ['1', '_', '0', '.', '5'] = some ⟨false, 105, 1⟩ := by decide +kernel

example : ofText? ['1', '.', '5', 'e', '3'] = some ⟨false, 1500, 0⟩ := by decide +kernel

example : ofText? ['-', '.', '0'] = some ⟨false, 0, 1⟩ := by decide +kernel

example : ofText? ['-', '1', '.', '5', 'e', '-', '2', '8'] = some ⟨true, 2, 28⟩ := by decide +kernel

example : ofText? "0.0000000029023523538605522645__9".toList =
    some ⟨false, 29023523538605522646, 28⟩ := by decide +kernel

example : ofText? "0.0000000000000000000000000001_9".toList = some ⟨false, 1, 28⟩ := by
  decide +kernel

end Decimal

end Scim
