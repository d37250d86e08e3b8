import Scim.Toml.Lexeme
import Scim.Toml.Scalar

/-!
# Reading TOML text

A document is a sequence of lines: entries `key = value` and headers `[key]` and `[[key]]`.  The
entries after a header belong to its table.  A value is a string, a word that stands for a value, an
array or an inline table.  Within arrays and inline tables lines may end between any two lexemes
except in a key.

The functions that read values take a number of steps, and one for each lexeme is enough, since
every call passes at least one.
-/

namespace Scim.Toml

namespace Reader

/-- The lexemes after line ends. -/
def skipLines (ls : List Lexeme) : List Lexeme := ls.dropWhile (· == .lineEnd)

/-! ## Keys -/

/-- What a lexeme contributes to a key: its parts, and `none` for each dot. -/
def keyPieces : Lexeme → List (Option String)
  | .word text =>
      (text.splitOn ".").map (fun part => if part.isEmpty then [] else [some part])
        |>.intersperse [none] |>.flatten
  | .string text _ => [some text]
  | _ => []

/-- The parts of a key that have single dots between them. -/
def keyParts? : List (Option String) → Option (List String)
  | [some part] => some [part]
  | some part :: none :: rest => (keyParts? rest).map (part :: ·)
  | _ => none

/-- Whether a lexeme may belong to a key. -/
def isOfKey : Lexeme → Bool
  | .word text => text.toList.all fun c => c != '+' && c != ':' && c != ' '
  | .string _ triple => !triple
  | _ => false

/-- A dotted key and the lexemes after it. -/
def key? (ls : List Lexeme) : Option (List String × List Lexeme) :=
  (keyParts? ((ls.takeWhile isOfKey).flatMap keyPieces)).map fun parts =>
    (parts, ls.dropWhile isOfKey)

/-! ## Values -/

mutual

/-- A value and the lexemes after it. -/
def value? : Nat → List Lexeme → Option (Value × List Lexeme)
  | 0, _ => none
  | steps + 1, ls =>
      match ls with
      | .string text _ :: rest => some (.string text, rest)
      | .word text :: rest => (Scalar.ofWord? text).map fun v => (v, rest)
      | .mark '[' _ :: rest => items? steps [] (skipLines rest)
      | .mark '\x7b' _ :: rest => pairs? steps [] (skipLines rest)
      | _ => none
termination_by structural steps => steps

/-- The rest of an array after some items, newest first. -/
def items? : Nat → List Value → List Lexeme → Option (Value × List Lexeme)
  | 0, _, _ => none
  | steps + 1, read, ls =>
      match ls with
      | .mark ']' _ :: rest => some (.array read.reverse, rest)
      | ls => do
          let (v, rest) ← value? steps ls
          match skipLines rest with
          | .mark ',' _ :: rest => items? steps (v :: read) (skipLines rest)
          | .mark ']' _ :: rest => some (.array (v :: read).reverse, rest)
          | _ => none
termination_by structural steps => steps

/-- The rest of an inline table after some entries. -/
def pairs? : Nat → Entries → List Lexeme → Option (Value × List Lexeme)
  | 0, _, _ => none
  | steps + 1, entries, ls =>
      match ls with
      | .mark '\x7d' _ :: rest => some (.table .inline entries, rest)
      | ls => do
          let (key, rest) ← key? ls
          match skipLines rest with
          | .mark '=' _ :: rest => do
              let (v, rest) ← value? steps (skipLines rest)
              let entries ← entries.insert? v key
              match skipLines rest with
              | .mark ',' _ :: rest => pairs? steps entries (skipLines rest)
              | .mark '\x7d' _ :: rest => some (.table .inline entries, rest)
              | _ => none
          | _ => none
termination_by structural steps => steps

end

/-! ## Documents -/

/-- The lexemes of the next lines, if the current one is over. -/
def endLine? : List Lexeme → Option (List Lexeme)
  | [] => some []
  | .lineEnd :: rest => some rest
  | _ => none

/-- Reads lines, where `here` is the key of the last header. -/
def lines? : Nat → List String → Entries → List Lexeme → Option Entries
  | 0, _, _, _ => none
  | steps + 1, here, root, ls =>
      match ls with
      | [] => some root
      | .lineEnd :: rest => lines? steps here root rest
      | .mark '[' _ :: .mark '[' true :: rest =>
          match key? rest with
          | some (key, .mark ']' _ :: .mark ']' true :: rest) => do
              let root ← root.append? key
              lines? steps key root (← endLine? rest)
          | _ => none
      | .mark '[' _ :: rest =>
          match key? rest with
          | some (key, .mark ']' _ :: rest) => do
              let root ← root.define? key
              lines? steps key root (← endLine? rest)
          | _ => none
      | ls =>
          match key? ls with
          | some (key, .mark '=' _ :: rest) => do
              let (v, rest) ← value? (steps + 1) rest
              let root ← root.changeAt? (Entries.insert? v key) here
              lines? steps here root (← endLine? rest)
          | _ => none

end Reader

/-- The entries of a document. -/
def ofText? (s : List Char) : Option Entries := do
  let ls ← lexemes? s
  Reader.lines? (ls.length + 1) [] [] ls

end Scim.Toml
