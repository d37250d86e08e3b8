import Scim.Number.Digits

/-!
# Lexemes of JSON text

JSON text is a sequence of punctuation marks, strings and words with white space between them.
A word is a run of the characters that numbers and the names `true`, `false` and `null` are made
of; what it means is decided later.

`Lexer.step` takes one character at a time.  A string holds no control character.  The escapes of
a leading and of a trailing surrogate stand for one character together.  A string in which one of
them stands alone is well formed and has no text.
-/

namespace Scim.Json

/-- A unit of JSON text. -/
inductive Lexeme where
  | openArray
  | closeArray
  | openObject
  | closeObject
  | comma
  | colon
  /-- A string, with its escapes resolved, if it has a text. -/
  | string (text : Option String)
  /-- A run of word characters. -/
  | word (text : List Char)
  deriving DecidableEq, Repr

namespace Lexer

/-- Where the lexer stands within a lexeme. -/
inductive Mode where
  /-- Between lexemes. -/
  | between
  /-- In a word; its characters, newest first. -/
  | word (read : List Char)
  /-- In a string; its text so far, unless a surrogate stood alone. -/
  | string (read : Option String)
  /-- After a backslash. -/
  | escape (read : Option String)
  /-- In the four digits of a code unit, after a leading surrogate if there was one. -/
  | unit (read : Option String) (leading : Option Nat) (digits : Nat) (value : Nat)
  /-- After a leading surrogate. -/
  | leading (read : Option String) (value : Nat)
  /-- After a leading surrogate and a backslash. -/
  | leadingEscape (read : Option String) (value : Nat)

/-- What has been read: the lexemes, newest first, and the one that is under way. -/
structure State where
  /-- The finished lexemes, newest first. -/
  lexemes : List Lexeme := []
  /-- The lexeme under way. -/
  mode : Mode := .between

/-- The white space of JSON. -/
def isSpace (c : Char) : Bool := c == ' ' || c == '\n' || c == '\t' || c == '\r'

/-- A character of numbers and names. -/
def isWordChar (c : Char) : Bool :=
  c.isAlphanum || c == '+' || c == '-' || c == '.'

/-- The mark that a character is. -/
def mark? (c : Char) : Option Lexeme :=
  if c = '[' then some .openArray
  else if c = ']' then some .closeArray
  else if c = '\x7b' then some .openObject
  else if c = '\x7d' then some .closeObject
  else if c = ',' then some .comma
  else if c = ':' then some .colon
  else none

/-- The character that a letter after a backslash stands for. -/
def escaped? (c : Char) : Option Char :=
  if c = '"' ∨ c = '\\' ∨ c = '/' then some c
  else if c = 'b' then some '\x08'
  else if c = 'f' then some '\x0c'
  else if c = 'n' then some '\n'
  else if c = 'r' then some '\r'
  else if c = 't' then some '\t'
  else none

/-- The text with a character at its end. -/
def extended (read : Option String) (c : Char) : Option String := read.map (·.push c)

/-- Goes on after the four digits of a code unit. -/
def unitRead (read : Option String) (leading : Option Nat) (value : Nat) : Mode :=
  let isTrailing := 0xDC00 ≤ value ∧ value ≤ 0xDFFF
  match leading with
  | some high =>
      if isTrailing then
        let code := 0x10000 + (high - 0xD800) * 0x400 + (value - 0xDC00)
        .string (extended read (Char.ofNat code))
      else .string none
  | none =>
      if isTrailing then .string none
      else if 0xD800 ≤ value ∧ value ≤ 0xDBFF then .leading read value
      else .string (extended read (Char.ofNat value))

/-- Takes a character of a string. -/
def stringChar (lexemes : List Lexeme) (read : Option String) (c : Char) : Option State :=
  if c = '"' then some ⟨.string read :: lexemes, .between⟩
  else if c = '\\' then some ⟨lexemes, .escape read⟩
  else if c.toNat < 0x20 then none
  else some ⟨lexemes, .string (extended read c)⟩

/-- Takes a character after a backslash. -/
def escapeChar (lexemes : List Lexeme) (read : Option String) (c : Char) : Option State :=
  if c = 'u' then some ⟨lexemes, .unit read none 0 0⟩
  else (escaped? c).map fun e => ⟨lexemes, .string (extended read e)⟩

/-- Takes a character between lexemes. -/
def start (lexemes : List Lexeme) (c : Char) : Option State :=
  if isSpace c then some ⟨lexemes, .between⟩
  else if c = '"' then some ⟨lexemes, .string (some "")⟩
  else if isWordChar c then some ⟨lexemes, .word [c]⟩
  else (mark? c).map fun m => ⟨m :: lexemes, .between⟩

/-- Takes one character. -/
def step (s : State) (c : Char) : Option State :=
  match s.mode with
  | .between => start s.lexemes c
  | .word read =>
      if isWordChar c then some { s with mode := .word (c :: read) }
      else start (.word read.reverse :: s.lexemes) c
  | .string read => stringChar s.lexemes read c
  | .escape read => escapeChar s.lexemes read c
  | .unit read leading digits value => do
      let value := 16 * value + (← Digits.hexValue? c)
      if digits < 3 then some { s with mode := .unit read leading (digits + 1) value }
      else some { s with mode := unitRead read leading value }
  | .leading read value =>
      if c = '\\' then some { s with mode := .leadingEscape read value }
      else stringChar s.lexemes none c
  | .leadingEscape read value =>
      if c = 'u' then some { s with mode := .unit read (some value) 0 0 }
      else escapeChar s.lexemes none c

/-- The lexemes of a text that is over. -/
def finish (s : State) : Option (List Lexeme) :=
  match s.mode with
  | .between => some s.lexemes.reverse
  | .word read => some (.word read.reverse :: s.lexemes).reverse
  | _ => none

end Lexer

/-- The lexemes of a text. -/
def lexemes? (s : List Char) : Option (List Lexeme) := do
  Lexer.finish (← s.foldlM Lexer.step {})

example : lexemes? ['[', '-', '1', ',', '"', '\\', 'n', '"', ']'] =
    some [.openArray, .word ['-', '1'], .comma, .string (some "\n"), .closeArray] := by
  decide

example : lexemes? ['"', '\\', 'u', 'd', '8', '0', '0', 'a', '"'] = some [.string none] := by
  decide

end Scim.Json
