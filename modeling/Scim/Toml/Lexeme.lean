import Scim.Number.Digits
import Scim.Toml.Moment

/-!
# Lexemes of TOML text

TOML text is a sequence of marks, strings, words and line ends with blanks between them.  A word is
a run of ASCII letters, digits and `_`, `-`, `+`, `.`, `:`, or such a run behind a date and a single
space.  Whether it is a part of a key or a value is decided later.  A comment runs from `#` to the
end of its line.  A line ends with a line feed, and a carriage return stands only in front of one.

A string is basic or literal, and stands on one line or between triple quotes.  Basic strings have
escapes.  Between triple quotes line ends are kept as they are written, except that one right after
the opening is dropped, one or two quotes may stand before the closing ones, and a backslash at the
end of a line drops the white space up to the next character.
-/

namespace Scim.Toml

/-- A unit of TOML text. -/
inductive Lexeme where
  | lineEnd
  /-- One of the characters `=`, `,`, brackets and braces, and whether it follows its like without
  a blank. -/
  | mark (c : Char) (doubled : Bool)
  /-- A run of word characters. -/
  | word (text : String)
  /-- A string, and whether it stands between triple quotes. -/
  | string (text : String) (triple : Bool)
  deriving DecidableEq, Repr

namespace Lexer

/-- The form of a string. -/
structure Form where
  /-- The quote. -/
  quote : Char
  /-- Whether the quotes are triple. -/
  triple : Bool

/-- Where the lexer stands. -/
inductive Mode where
  | between
  /-- Right after a mark. -/
  | mark (c : Char)
  | word (read : String)
  /-- After a date and a space. -/
  | date (read : String)
  | comment
  /-- After one or two quotes that may open a triple one. -/
  | opening (quote : Char) (count : Nat)
  /-- In a string, after a number of quotes that may close it. -/
  | string (form : Form) (read : String) (quotes : Nat)
  /-- After the line end that a triple quote may be followed by, or in its place. -/
  | tripleStart (form : Form)
  /-- After a backslash. -/
  | escape (form : Form) (read : String)
  /-- In the digits of a code point. -/
  | code (form : Form) (read : String) (left : Nat) (value : Nat)
  /-- In white space that a backslash drops, and whether a line has ended. -/
  | dropping (form : Form) (read : String) (ended : Bool)
  /-- After a carriage return, with the mode after the line feed that has to follow. -/
  | lineFeed (after : Mode)

/-- What has been read. -/
structure State where
  /-- The finished lexemes, newest first. -/
  lexemes : List Lexeme := []
  /-- The lexeme under way. -/
  mode : Mode := .between

/-- A character of words. -/
def isWordChar (c : Char) : Bool :=
  c.isAlphanum || c == '_' || c == '-' || c == '+' || c == '.' || c == ':'

/-- A character that is a lexeme of its own. -/
def isMark (c : Char) : Bool :=
  c == '=' || c == ',' || c == '[' || c == ']' || c == '\x7b' || c == '\x7d'

/-- A control character other than the tab. -/
def isControl (c : Char) : Bool := (c.toNat < 0x20 && c != '\t') || c.toNat == 0x7F

/-- The text with quotes at its end. -/
def withQuotes (read : String) (quote : Char) (n : Nat) : String :=
  read ++ String.ofList (List.replicate n quote)

/-- Takes a character between lexemes. -/
def start (lexemes : List Lexeme) (c : Char) : Option State :=
  if c = ' ' ∨ c = '\t' then some ⟨lexemes, .between⟩
  else if c = '\n' then some ⟨.lineEnd :: lexemes, .between⟩
  else if c = '\r' then some ⟨.lineEnd :: lexemes, .lineFeed .between⟩
  else if c = '#' then some ⟨lexemes, .comment⟩
  else if c = '"' ∨ c = '\'' then some ⟨lexemes, .opening c 1⟩
  else if isMark c then some ⟨.mark c false :: lexemes, .mark c⟩
  else if isWordChar c then some ⟨lexemes, .word (String.singleton c)⟩
  else none

/-- The character that a letter after a backslash stands for. -/
def escaped? (c : Char) : Option Char :=
  if c = '"' ∨ c = '\\' then some c
  else if c = 'b' then some '\x08'
  else if c = 't' then some '\t'
  else if c = 'n' then some '\n'
  else if c = 'f' then some '\x0c'
  else if c = 'r' then some '\r'
  else if c = 'e' then some '\x1b'
  else none

/-- Takes a character in a string. -/
def stringChar (lexemes : List Lexeme) (form : Form) (read : String) (c : Char) : Option State :=
  if c = form.quote then
    if form.triple then some ⟨lexemes, .string form read 1⟩
    else some ⟨.string read false :: lexemes, .between⟩
  else if c = '\\' ∧ form.quote = '"' then some ⟨lexemes, .escape form read⟩
  else if c = '\n' ∧ form.triple then some ⟨lexemes, .string form (read.push c) 0⟩
  else if c = '\r' ∧ form.triple then
    some ⟨lexemes, .lineFeed (.string form (read ++ "\r\n") 0)⟩
  else if isControl c then none
  else some ⟨lexemes, .string form (read.push c) 0⟩

/-- Takes a character after quotes that may close a triple string. -/
def afterQuotes (lexemes : List Lexeme) (form : Form) (read : String) (quotes : Nat) (c : Char) :
    Option State :=
  if c = form.quote ∧ quotes < 5 then some ⟨lexemes, .string form read (quotes + 1)⟩
  else if 3 ≤ quotes then
    start (.string (withQuotes read form.quote (quotes - 3)) true :: lexemes) c
  else stringChar lexemes form (withQuotes read form.quote quotes) c

/-- Takes a character after a backslash. -/
def escapeChar (lexemes : List Lexeme) (form : Form) (read : String) (c : Char) : Option State :=
  if c = 'x' then some ⟨lexemes, .code form read 2 0⟩
  else if c = 'u' then some ⟨lexemes, .code form read 4 0⟩
  else if c = 'U' then some ⟨lexemes, .code form read 8 0⟩
  else if form.triple ∧ (c = ' ' ∨ c = '\t' ∨ c = '\n') then
    some ⟨lexemes, .dropping form read (c == '\n')⟩
  else if form.triple ∧ c = '\r' then some ⟨lexemes, .lineFeed (.dropping form read true)⟩
  else (escaped? c).map fun e => ⟨lexemes, .string form (read.push e) 0⟩

/-- Takes one character. -/
def step (s : State) (c : Char) : Option State :=
  match s.mode with
  | .between => start s.lexemes c
  | .mark d =>
      if c = d then some ⟨.mark c true :: s.lexemes, .mark c⟩ else start s.lexemes c
  | .word read =>
      if isWordChar c then some { s with mode := .word (read.push c) }
      else if c = ' ' ∧ Moment.isDate read.toList then some { s with mode := .date read }
      else start (.word read :: s.lexemes) c
  | .date read =>
      if c.isDigit then some { s with mode := .word (read.push ' ' |>.push c) }
      else start (.word read :: s.lexemes) c
  | .comment =>
      if c = '\n' ∨ c = '\r' then start s.lexemes c
      else if isControl c then none
      else some s
  | .lineFeed after => if c = '\n' then some { s with mode := after } else none
  | .opening quote count =>
      if c = quote then
        if count = 2 then some { s with mode := .tripleStart ⟨quote, true⟩ }
        else some { s with mode := .opening quote 2 }
      else if count = 2 then start (.string "" false :: s.lexemes) c
      else stringChar s.lexemes ⟨quote, false⟩ "" c
  | .tripleStart form =>
      if c = '\n' then some { s with mode := .string form "" 0 }
      else if c = '\r' then some { s with mode := .lineFeed (.string form "" 0) }
      else stringChar s.lexemes form "" c
  | .string form read quotes =>
      if quotes = 0 then stringChar s.lexemes form read c
      else afterQuotes s.lexemes form read quotes c
  | .escape form read => escapeChar s.lexemes form read c
  | .code form read left value => do
      let value := 16 * value + (← Digits.hexValue? c)
      if 1 < left then some { s with mode := .code form read (left - 1) value }
      else if value.isValidChar then
        some { s with mode := .string form (read.push (Char.ofNat value)) 0 }
      else none
  | .dropping form read ended =>
      if c = '\n' then some { s with mode := .dropping form read true }
      else if c = '\r' then some { s with mode := .lineFeed (.dropping form read true) }
      else if c = ' ' ∨ c = '\t' then some s
      else if ended then stringChar s.lexemes form read c
      else none

/-- The lexemes of a text that is over. -/
def finish (s : State) : Option (List Lexeme) :=
  match s.mode with
  | .between | .mark _ | .comment => some s.lexemes.reverse
  | .word read | .date read => some (.word read :: s.lexemes).reverse
  | .opening _ 2 => some (.string "" false :: s.lexemes).reverse
  | .string form read quotes =>
      if 3 ≤ quotes then
        some (.string (withQuotes read form.quote (quotes - 3)) true :: s.lexemes).reverse
      else none
  | _ => none

end Lexer

/-- The lexemes of a text, which may start with a byte order mark. -/
def lexemes? (s : List Char) : Option (List Lexeme) := do
  let s := match s with
    | '\ufeff' :: rest => rest
    | s => s
  Lexer.finish (← s.foldlM Lexer.step {})

end Scim.Toml
