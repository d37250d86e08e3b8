import Scim.Number.Digits
import Scim.Text.Blank
import Scim.Time.Calendar

/-!
# Instants

A date-time with an offset names an instant: a second, counted in UTC from the start of 1970,
and nanoseconds within it.  A leap second keeps the number of the second before it and counts its
nanoseconds from `10^9` on, so the order of instants is the lexicographic one.

There are two ways to read a date-time.

* `Instant.ofStrict?` accepts the profile of RFC 3339 and nothing else.  Filters and the check of
  attribute values use it.
* `Instant.ofLenient?` also accepts fields of one digit, signed years of any length, white space
  around the fields, an offset with or without its colon and the word `UTC`.  The `meta` block of
  a resource uses it.

Both share the fields of the time of day and the form of the offset.  `Instant.text` writes an
instant in UTC with the fewest groups of three fraction digits that keep it exact.
-/

namespace Scim

/-- A point in time. -/
structure Instant where
  /-- Seconds from the start of 1970 in UTC. -/
  seconds : Int
  /-- Nanoseconds within the second; a leap second counts on from `10^9`. -/
  nanos : Nat
  deriving DecidableEq, Repr

namespace Instant

/-- The order in time. -/
def compare (a b : Instant) : Ordering :=
  (Ord.compare a.seconds b.seconds).then (Ord.compare a.nanos b.nanos)

/-! ## Fields -/

/-- Reads between `least` and `most` digits, as many as there are. -/
def number? (least most : Nat) (s : List Char) : Option (Nat × List Char) :=
  let digits := (s.take most).takeWhile Char.isDigit
  if digits.length < least then none else some (Digits.number digits, s.drop digits.length)

/-- Passes one expected character. -/
def pass? (c : Char) : List Char → Option (List Char)
  | [] => none
  | d :: rest => if c = d then some rest else none

/-- Passes the separator of date and time. -/
def separator? : List Char → Option (List Char)
  | [] => none
  | c :: rest => if c = 'T' ∨ c = 't' ∨ c = ' ' then some rest else none

/-- Reads an optional fraction of a second as nanoseconds.  Digits beyond the ninth are cut. -/
def fraction? : List Char → Option (Nat × List Char)
  | '.' :: s => do
      let (n, rest) ← number? 1 9 s
      let width := s.length - rest.length
      some (n * Nat.pow 10 (9 - width), rest.dropWhile Char.isDigit)
  | s => some (0, s)

/-- The seconds of an offset of hours and minutes, `passColon` between them, or of `Z`. -/
def offset? (passColon : List Char → Option (List Char)) (s : List Char) :
    Option (Int × List Char) :=
  match s with
  | [] => none
  | c :: rest =>
      if c = 'Z' ∨ c = 'z' then some (0, rest)
      else if c = '+' ∨ c = '-' ∨ c = '\u2212' then do
        let (hours, rest) ← number? 2 2 rest
        let (minutes, rest) ← number? 2 2 (← passColon rest)
        if 23 < hours ∨ 59 < minutes then none
        else
          let size : Int := hours * 3600 + minutes * 60
          some (if c = '+' then size else -size, rest)
      else none

/-- The instant of a local date and time under an offset. -/
def ofFields? (year : Int) (month day hour minute second nanos : Nat) (offset : Int) :
    Option Instant :=
  if Calendar.isDate year month day && hour ≤ 23 && minute ≤ 59 && second ≤ 60 then
    let leap : Nat := if second = 60 then 1 else 0
    let clock : Int := hour * 3600 + minute * 60 + second - leap
    let utc := Calendar.dayNumber year month day * 86400 + clock - offset
    let first := Calendar.dayNumber (-262143) 1 1 * 86400
    let last := Calendar.dayNumber 262142 12 31 * 86400 + 86399
    if -262143 ≤ year ∧ year ≤ 262142 ∧ first ≤ utc ∧ utc ≤ last then
      some ⟨utc, nanos + leap * 1000000000⟩
    else none
  else none

/-! ## The two readers -/

/-- Reads a date-time of RFC 3339. -/
def ofStrict? (s : List Char) : Option Instant := do
  let (year, s) ← number? 4 4 s
  let (month, s) ← number? 2 2 (← pass? '-' s)
  let (day, s) ← number? 2 2 (← pass? '-' s)
  let (hour, s) ← number? 2 2 (← separator? s)
  let (minute, s) ← number? 2 2 (← pass? ':' s)
  let (second, s) ← number? 2 2 (← pass? ':' s)
  let (nanos, s) ← fraction? s
  let (offset, s) ← offset? (pass? ':') s
  if s.isEmpty then ofFields? year month day hour minute second nanos offset else none

/-- Reads a year with an optional sign, which lifts the limit of four digits. -/
def lenientYear? (s : List Char) : Option (Int × List Char) :=
  match Text.trimStart s with
  | '-' :: rest => (number? 1 rest.length rest).map fun (n, rest) => (-(n : Int), rest)
  | '+' :: rest => (number? 1 rest.length rest).map fun (n, rest) => ((n : Int), rest)
  | s => (number? 1 4 s).map fun (n, rest) => ((n : Int), rest)

/-- Reads a field of one or two digits after optional white space. -/
def lenientField? (s : List Char) : Option (Nat × List Char) := number? 1 2 (Text.trimStart s)

/-- Passes a mark after optional white space. -/
def lenientPass? (c : Char) (s : List Char) : Option (List Char) := pass? c (Text.trimStart s)

/-- Reads an offset or the word `UTC`. -/
def lenientOffset? (s : List Char) : Option (Int × List Char) :=
  if (s.take 3).map Char.toUpper = ['U', 'T', 'C'] then some (0, s.drop 3)
  else offset? (fun s => some (s.dropWhile fun c => c == ':' || Text.isBlank c)) s

/-- Reads a date-time with white space between its fields and short fields. -/
def ofLenient? (s : List Char) : Option Instant := do
  let (year, s) ← lenientYear? s
  let (month, s) ← lenientField? (← lenientPass? '-' s)
  let (day, s) ← lenientField? (← lenientPass? '-' s)
  let (hour, s) ← lenientField? (← separator? s)
  let (minute, s) ← lenientField? (← lenientPass? ':' s)
  let (second, s) ← lenientField? (← lenientPass? ':' s)
  let (nanos, s) ← fraction? s
  let (offset, s) ← lenientOffset? (Text.trimStart s)
  if (Text.trimStart s).isEmpty then ofFields? year month day hour minute second nanos offset
  else none

/-! ## Writing -/

/-- A number with leading zeros up to a width. -/
def padded (width n : Nat) : List Char :=
  let digits := Nat.toDigits 10 n
  List.replicate (width - digits.length) '0' ++ digits

/-- A year of four digits, signed if it needs more or is negative. -/
def yearText (year : Int) : List Char :=
  if 0 ≤ year ∧ year ≤ 9999 then padded 4 year.toNat
  else (if year < 0 then '-' else '+') :: padded 4 year.natAbs

/-- The fraction of a second in as few groups of three digits as are exact. -/
def fractionText (nanos : Nat) : List Char :=
  if nanos = 0 then []
  else if nanos % 1000000 = 0 then '.' :: padded 3 (nanos / 1000000)
  else if nanos % 1000 = 0 then '.' :: padded 6 (nanos / 1000)
  else '.' :: padded 9 nanos

/-- The instant as a date-time in UTC. -/
def text (i : Instant) : String :=
  let (year, month, day) := Calendar.dateOf (i.seconds / 86400)
  let clock := (i.seconds % 86400).toNat
  let leap := i.nanos / 1000000000
  String.ofList <|
    yearText year ++ '-' :: padded 2 month ++ '-' :: padded 2 day ++ 'T' ::
      padded 2 (clock / 3600) ++ ':' :: padded 2 (clock / 60 % 60) ++ ':' ::
      padded 2 (clock % 60 + leap) ++ fractionText (i.nanos % 1000000000) ++ ['Z']

end Instant

end Scim
