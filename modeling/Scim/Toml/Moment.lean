import Scim.Time.Instant

/-!
# Dates and times in TOML

A moment is a date, a time of day, or a date and a time with a separator between them.  Seconds may
be left out, and a date with a time may have an offset.  Whether a text is a moment is all that is
said here.
-/

namespace Scim.Toml.Moment

/-- The text after a date. -/
def afterDate? (s : List Char) : Option (List Char) := do
  let (year, s) ← Instant.number? 4 4 s
  let (month, s) ← Instant.number? 2 2 (← Instant.pass? '-' s)
  let (day, s) ← Instant.number? 2 2 (← Instant.pass? '-' s)
  if Calendar.isDate year month day then some s else none

/-- The text after the seconds of a time, if there are any. -/
def afterSeconds? : List Char → Option (List Char)
  | ':' :: s => do
      let (second, s) ← Instant.number? 2 2 s
      if second ≤ 60 then (Instant.fraction? s).map (·.2) else none
  | s => some s

/-- The text after a time of day. -/
def afterTime? (s : List Char) : Option (List Char) := do
  let (hour, s) ← Instant.number? 2 2 s
  let (minute, s) ← Instant.number? 2 2 (← Instant.pass? ':' s)
  if hour ≤ 23 ∧ minute ≤ 59 then afterSeconds? s else none

/-- Whether a text is empty or an offset. -/
def isOffset (s : List Char) : Bool :=
  s.isEmpty || (Instant.offset? (Instant.pass? ':') s).any (·.2.isEmpty)

/-- Whether a text is a date. -/
def isDate (s : List Char) : Bool := (afterDate? s).any List.isEmpty

/-- Whether a text is a moment. -/
def isMoment (s : List Char) : Bool :=
  match afterDate? s with
  | none => (afterTime? s).any List.isEmpty
  | some [] => true
  | some s => ((Instant.separator? s).bind afterTime?).any isOffset

end Scim.Toml.Moment
