import Scim.Number.Digits
import Scim.Toml.Basic
import Scim.Toml.Moment

/-!
# Words as values

A word stands for a truth value, an integer, a number that is not an integer, or a moment.  A single
underscore may stand between two digits of a number.  An integer is decimal, or has no sign and
names its base in front.  A number that is not an integer has a fraction, an exponent or both, or is
one of the words `inf` and `nan`.
-/

namespace Scim.Toml.Scalar

/-! ## Integers -/

/-- The value of a digit in a base. -/
def digit? (base : Nat) (c : Char) : Option Nat := do
  let d ← Digits.hexValue? c
  if d < base then some d else none

/-- The number that digits write, where a single underscore may stand between two digits. -/
def digits? (base : Nat) (value : Nat) (afterDigit : Bool) : List Char → Option Nat
  | [] => if afterDigit then some value else none
  | '_' :: rest => if afterDigit then digits? base value false rest else none
  | c :: rest => do
      let d ← digit? base c
      digits? base (base * value + d) true rest

/-- A decimal number, which starts with zero only if it is zero. -/
def decimal? : List Char → Option Nat
  | ['0'] => some 0
  | '0' :: _ => none
  | s => digits? 10 0 false s

/-- An integer. -/
def integer? : List Char → Option Int
  | '0' :: 'x' :: s => (digits? 16 0 false s).map fun n => (n : Int)
  | '0' :: 'o' :: s => (digits? 8 0 false s).map fun n => (n : Int)
  | '0' :: 'b' :: s => (digits? 2 0 false s).map fun n => (n : Int)
  | '-' :: s => (decimal? s).map fun n => -(n : Int)
  | '+' :: s => (decimal? s).map fun n => (n : Int)
  | s => (decimal? s).map fun n => (n : Int)

/-! ## Other numbers -/

/-- A text without its sign. -/
def withoutSign : List Char → List Char
  | '+' :: s => s
  | '-' :: s => s
  | s => s

/-- The text up to a mark, and the text after the mark if there is one. -/
def cut (isMark : Char → Bool) (s : List Char) : List Char × Option (List Char) :=
  match s.dropWhile (!isMark ·) with
  | [] => (s, none)
  | _ :: after => (s.takeWhile (!isMark ·), some after)

/-- Whether a text is one or more digits. -/
def isDigits (s : List Char) : Bool := (digits? 10 0 false s).isSome

/-- Whether a text is a number that is not an integer. -/
def isFloat (s : List Char) : Bool :=
  let s := withoutSign s
  let (mantissa, exponent) := cut (fun c => c == 'e' || c == 'E') s
  let (whole, fraction) := cut (· == '.') mantissa
  s == ['i', 'n', 'f'] || s == ['n', 'a', 'n'] ||
    ((decimal? whole).isSome && (fraction.isSome || exponent.isSome) &&
      fraction.all isDigits && exponent.all (isDigits <| withoutSign ·))

/-! ## Words -/

/-- The value of a word. -/
def ofWord? (word : String) : Option Value :=
  let s := word.toList
  if word = "true" then some (.boolean true)
  else if word = "false" then some (.boolean false)
  else if isFloat s then some (.float word)
  else if Moment.isMoment s then some (.moment word)
  else (integer? s).map .integer

example : isFloat ['1', '.', '0', 'e', '-', '0', '7'] ∧ !isFloat ['1', '.'] ∧ !isFloat ['1'] := by
  decide

end Scim.Toml.Scalar
