import Scim.Log.Entry
import Scim.Number.Digits
import Scim.Text.Alphanumeric
import Scim.Text.Blank
import Scim.Text.Folding

/-!
# Directives

Directives say which log entries are shown.  A directive holds for the entries whose origin starts
with a given text and that have a given field, and shows those of some levels.  Of the directives
that hold for an entry the most specific one decides: the one with the longest origin, then the one
with a field, of two fields the later one in the order of names.  Of two that are equally specific
the later one decides.

A text lists directives between commas.

* A level, as a word in any case or as a number from 0 to 5, is a directive for all entries.
* `origin`, `[span]`, `[{field}]`, or an origin with such brackets behind it, is a directive that
  shows all levels, or the level behind `=` if there is one.

A span is a piece of work that entries are made in.  None of the entries here has one, so a
directive for a span, or for a value of a field, holds for none of them.

The marks of a directive are looked for in its text without the blanks around it, and the parts
between them are then taken from the text with the blanks, by their positions.  So a blank in front
or behind never helps: a level with one is none, and no entry has an origin with one.
-/

namespace Scim.Log

/-- Which entries of an origin are shown. -/
structure Directive where
  /-- The start of the origin of the entries. -/
  origin : Option String := none
  /-- A field that the entries have. -/
  field : Option String := none
  /-- Whether the directive holds only within a span or for a value of a field. -/
  isScoped : Bool := false
  /-- The number of levels that are shown. -/
  verbosity : Nat := Level.trace.verbosity
  deriving DecidableEq, Repr

namespace Directive

/-! ## Choice -/

/-- Whether a directive holds for an entry. -/
def holdsFor (d : Directive) (e : Entry) : Bool :=
  !d.isScoped && (d.origin.all fun o => o.toList.isPrefixOf e.origin.toList) &&
    d.field.all e.fieldNames.contains

/-- Whether a directive for the same entry is less specific. -/
def yieldsTo (d other : Directive) : Bool :=
  match compare (d.origin.map String.length) (other.origin.map String.length) with
  | .lt => true
  | .gt => false
  | .eq => compare d.field other.field != .gt

/-- The directive that decides about an entry. -/
def deciding? (ds : List Directive) (e : Entry) : Option Directive :=
  (ds.filter (·.holdsFor e)).foldl
    (fun best d => if best.all (·.yieldsTo d) then some d else best) none

/-- Whether directives show an entry. -/
def show? (ds : List Directive) (e : Entry) : Bool :=
  (deciding? ds e).any fun d => e.level.verbosity ≤ d.verbosity

/-! ## Reading -/

/-- The number of levels that a word or a number shows. -/
def verbosity? (s : List Char) : Option Nat :=
  match Digits.unsigned? s with
  | some n => if n ≤ Level.trace.verbosity then some n else none
  | none =>
      let words := ("off", 0) :: Level.all.map fun l => (l.word, l.verbosity)
      (words.find? fun w => Text.alike w.1 (String.ofList s)).map (·.2)

/-- Reads the level of a directive, which may be left out. -/
def ofLevel? (d : Directive) (level : List Char) : Option Directive :=
  if level.isEmpty then some d else (verbosity? level).map fun v => { d with verbosity := v }

/-- Reads what follows the brackets of a directive. -/
def afterBrackets? (d : Directive) (text : List Char) : List Char → Option Directive
  | [] => some d
  | '=' :: _ => d.ofLevel? (text.drop 1)
  | _ => none

/-- Reads what stands between brackets, and the level behind them. -/
def ofBrackets? (d : Directive) (text trimmed : List Char) : Option Directive :=
  let isEnd (c : Char) : Bool := c == ']' || c == '\x7b'
  let n := (trimmed.takeWhile (!isEnd ·)).length
  let text := text.drop (n + 1)
  match trimmed.drop n with
  | ']' :: rest => { d with isScoped := true }.afterBrackets? text rest
  | _ :: trimmed =>
      let m := (trimmed.takeWhile (· != '\x7d')).length
      let field := text.take m
      match trimmed.drop m with
      | _ :: ']' :: rest =>
          if field.isEmpty then none
          else
            let named : Directive :=
              { d with
                field := some (String.ofList (field.takeWhile (· != '=')))
                isScoped := n != 0 || field.contains '=' }
            named.afterBrackets? (text.drop (m + 2)) rest
      | _ => none
  | [] => none

/-- A character that an origin starts with. -/
def startsOrigin (c : Char) : Bool :=
  Text.isAlphanumeric c || c == '-' || c == ':' || c == '_'

/-- Reads a directive. -/
def ofText? (text : List Char) : Option Directive :=
  let trimmed := Text.trim text
  let isEnd (c : Char) : Bool := c == '=' || c == '['
  match trimmed with
  | [] => none
  | '[' :: rest => ofBrackets? {} (text.drop 1) rest
  | c :: _ =>
      if !startsOrigin c then none
      else
        let n := (trimmed.takeWhile (!isEnd ·)).length
        let named : Directive := { origin := some (String.ofList (text.take n)) }
        match trimmed.drop n with
        | [] =>
            match verbosity? text with
            | some v => some { verbosity := v }
            | none => some { origin := some (String.ofList text) }
        | '[' :: rest => named.ofBrackets? (text.drop (n + 1)) rest
        | _ => named.ofLevel? (text.drop (n + 1))

/-- Reads a list of directives, unless one of them makes no sense. -/
def listOfText? (s : List Char) : Option (List Directive) :=
  ((s.splitOn ',').filter (!·.isEmpty)).mapM ofText?

/-! ## Which entries are shown -/

example : (listOfText? "warn,a::b=debug".toList).map (show? · ⟨.debug, "a::b::c", "", []⟩) =
    some true := by decide +kernel

example : (listOfText? "debug,[\x7bsize\x7d]=off".toList).map
    (show? · ⟨.debug, "a", "", [("size", "1")]⟩) = some false := by decide +kernel

example : listOfText? "debug,!".toList = none := by decide +kernel

end Directive

end Scim.Log
