import Scim.Filter.Error
import Scim.Filter.Token
import Scim.Text.Blank

/-!
# Scanning filter text

The scanner reads a filter one character at a time and cuts it into tokens.

* White space ends the pending word, except between quotes.
* A parenthesis ends the pending word and is a token of its own.
* `[` opens a filter in brackets behind the path before it.  Inside it no other bracket opens.
* `]` closes it and makes one token of the path and the bracketed tokens.  Only white space or a
  closing parenthesis may come next.

Parentheses are counted inside and outside of brackets, so a group does not cross a bracket.
Quotes may stand in the middle of a word.

A position is the number of bytes before a character.  When a bracket is still open at the end,
no character is at fault; the error then reports the start of the last quoted text, or the number
of tokens outside the bracket if that is greater.
-/

namespace Scim.Filter

/-- Where the scanner stands with respect to quoted text. -/
inductive Scanner.Quoting where
  /-- Outside quotes. -/
  | outside
  /-- Between quotes. -/
  | inside
  /-- Between quotes, after a backslash. -/
  | escaped
  deriving DecidableEq, Repr

/-- What has been read of a filter. -/
structure Scanner where
  /-- The finished tokens outside brackets. -/
  outer : Array Token := #[]
  /-- The finished tokens of the open bracket, if one is open. -/
  inner : Option (Array Token) := none
  /-- The pending word. -/
  word : String := ""
  /-- Whether the scanner is between quotes. -/
  quoting : Scanner.Quoting := .outside
  /-- Where the last quoted text starts. -/
  quoteStart : Nat := 0
  /-- The open parentheses outside brackets. -/
  outerOpen : Nat := 0
  /-- The open parentheses of the open bracket. -/
  innerOpen : Nat := 0
  /-- Whether a bracket has just been closed. -/
  closed : Bool := false

namespace Scanner

/-- Adds a token inside or outside the bracket. -/
def emit (s : Scanner) (t : Token) : Scanner :=
  match s.inner with
  | some tokens => { s with inner := some (tokens.push t) }
  | none => { s with outer := s.outer.push t }

/-- Ends the pending word. -/
def flush (s : Scanner) : Scanner :=
  if s.word.isEmpty then s else { s with word := "" }.emit (.ofWord s.word)

/-- Takes a character between quotes. -/
def quotedChar (s : Scanner) (c : Char) : Scanner :=
  { s with
    word := s.word.push c
    quoting :=
      if s.quoting = .escaped then .inside
      else if c = '\\' then .escaped
      else if c = '"' then .outside
      else .inside }

/-- Opens a bracket. -/
def openBracket (s : Scanner) (position : Nat) : Except Error Scanner :=
  let s := s.flush
  if s.inner.isSome then .error (.nestingTooDeep position)
  else
    match s.outer.back? with
    | some t =>
        if t.kind = .path then .ok { s with inner := some #[], innerOpen := 0 }
        else .error (.danglingFilter position)
    | none => .error (.danglingFilter position)

/-- Closes a bracket. -/
def closeBracket (s : Scanner) (position : Nat) : Except Error Scanner :=
  if s.inner.isNone then .error (.mismatchedBracket position)
  else
    let s := s.flush
    let tokens := (s.inner.getD #[]).toList
    if s.innerOpen ≠ 0 then .error .mismatchedParenthesis
    else if tokens.isEmpty then .error .empty
    else
      match s.outer.back? with
      | some path =>
          .ok { s with
            outer := s.outer.pop.push (.withFilter path.text tokens)
            inner := none
            closed := true }
      | none => .error (.danglingFilter position)

/-- The open parentheses where the scanner stands. -/
def openCount (s : Scanner) : Nat := if s.inner.isSome then s.innerOpen else s.outerOpen

/-- Sets the number of open parentheses where the scanner stands. -/
def setOpenCount (s : Scanner) (n : Nat) : Scanner :=
  if s.inner.isSome then { s with innerOpen := n } else { s with outerOpen := n }

/-- Opens a group. -/
def openGroup (s : Scanner) : Scanner :=
  let s := s.flush
  (s.setOpenCount (s.openCount + 1)).emit (.parenthesis true)

/-- Closes a group. -/
def closeGroup (s : Scanner) : Except Error Scanner :=
  let s := s.flush
  if s.openCount = 0 then .error .mismatchedParenthesis
  else .ok ((s.setOpenCount (s.openCount - 1)).emit (.parenthesis false))

/-- Takes a character outside quotes. -/
def plainChar (s : Scanner) (position : Nat) (c : Char) : Except Error Scanner :=
  if c = '"' then
    .ok { s with quoting := .inside, quoteStart := position, word := s.word.push c }
  else if Text.isBlank c then .ok s.flush
  else if c = '[' then s.openBracket position
  else if c = ']' then s.closeBracket position
  else if c = '(' then .ok s.openGroup
  else if c = ')' then s.closeGroup
  else .ok { s with word := s.word.push c }

/-- Takes a character at its position. -/
def step (s : Scanner) (position : Nat) (c : Char) : Except Error Scanner :=
  if s.quoting ≠ .outside then .ok (s.quotedChar c)
  else if s.closed && !(Text.isBlank c || c == ')') then
    .error (.unexpectedAfterFilter c position)
  else { s with closed := false }.plainChar position c

/-- Takes the characters from a position on. -/
def run (s : Scanner) (position : Nat) : List Char → Except Error Scanner
  | [] => .ok s
  | c :: rest => do
      let next ← s.step position c
      next.run (position + c.utf8Size) rest

/-- The tokens of a text that is over. -/
def finish (s : Scanner) : Except Error (List Token) :=
  if s.quoting ≠ .outside then .error (.unterminatedString s.quoteStart)
  else
    let s := s.flush
    if s.inner.isSome then .error (.mismatchedBracket (max s.quoteStart s.outer.size))
    else if s.outerOpen ≠ 0 then .error .mismatchedParenthesis
    else if s.outer.isEmpty then .error .empty
    else .ok s.outer.toList

end Scanner

/-- Splits a filter into tokens. -/
def tokenize (text : String) : Except Error (List Token) := do
  (← Scanner.run {} 0 text.toList).finish

end Scim.Filter
