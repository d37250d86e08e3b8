import Scim.Number.Double

/-!
# The shortest text of a double

A double is written with the fewest digits that still read back as the same double, and of
several such digit strings with the one nearest to its value.  The real numbers that round to
the double form an interval.  The search walks from coarse to fine decimal grids and stops at
the first grid with a point in the interval; only the two grid points next to the value can be
the nearest one.  Seventeen digits always suffice.

The layout is a separate decision, made in `Double.text`.  A number from `0.00001` up to below
`10^16` is written positionally, with at least one digit on either side of the point.  All other
numbers have one digit before the point and a signed exponent.
-/

namespace Scim.Double

/-- The ends of the interval of reals that round to `x`, and `x` itself, in quarters of the unit
of its last place. -/
def interval (x : Double) : Nat × Nat × Nat :=
  let v := 4 * x.mantissa
  let below := if x.mantissa = 0x10000000000000 ∧ x.exponent > -1074 then 1 else 2
  (v - below, v, v + 2)

/-- The point of the grid of multiples of `10^k` that is nearest to `x`, if it reads back as
`x`; at a midpoint the even one. -/
def onGrid? (x : Double) (k : Int) : Option Nat :=
  let (low, v, high) := x.interval
  -- `unit` quarters make one step of the grid, `scale` one quarter
  let (scale, half) := shifted 1 1 (x.exponent - 2)
  let unit := if 0 ≤ k then half * Nat.pow 10 k.toNat else half
  let scale := if 0 ≤ k then scale else scale * Nat.pow 10 (-k).toNat
  let inside (d : Nat) : Bool :=
    if x.mantissa % 2 = 0 then low * scale ≤ d * unit && d * unit ≤ high * scale
    else low * scale < d * unit && d * unit < high * scale
  let d := v * scale / unit
  let rest := 2 * (v * scale % unit)
  let nearer := if unit < rest ∨ (rest = unit ∧ d % 2 = 1) then [d + 1, d] else [d, d + 1]
  nearer.find? inside

/-- A power of ten above the value of `x`, as a start of the search. -/
def topPower (x : Double) : Int :=
  (x.mantissa.log2 + x.exponent) * 30103 / 100000 + 2

/-- The shortest digits of `x` and the power of ten that scales them. -/
def shortest (x : Double) : Nat × Int :=
  let top := x.topPower
  ((List.range 21).findSome? fun (i : Nat) =>
    (x.onGrid? (top - i)).map fun d => (d, top - i)).getD (0, 0)

/-- Digits with the decimal point after the first `point` of them. -/
def positional (digits : List Char) (point : Int) : List Char :=
  let n : Int := digits.length
  if point ≤ 0 then '0' :: '.' :: (List.replicate (-point).toNat '0' ++ digits)
  else if n ≤ point then digits ++ List.replicate (point - n).toNat '0' ++ ['.', '0']
  else digits.take point.toNat ++ '.' :: digits.drop point.toNat

/-- Digits with one of them before the point, and a signed exponent. -/
def scientific (digits : List Char) (exponent : Int) : List Char :=
  let mantissa := match digits with
    | [] => []
    | [d] => [d]
    | d :: ds => d :: '.' :: ds
  let sign := if exponent < 0 then '-' else '+'
  mantissa ++ 'e' :: sign :: Nat.toDigits 10 exponent.natAbs

/-- The written form of a double. -/
def text (x : Double) : String :=
  let sign := if x.negative then ['-'] else []
  if x.isZero then String.ofList (sign ++ ['0', '.', '0'])
  else
    let (d, k) := x.shortest
    let digits := Nat.toDigits 10 d
    let point := digits.length + k
    String.ofList <| sign ++
      if -5 < point ∧ point ≤ 16 then positional digits point
      else scientific digits (point - 1)

end Scim.Double
