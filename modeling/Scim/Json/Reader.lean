import Scim.Json.Lexeme
import Scim.Json.Literal
import Scim.Json.Written

/-!
# Reading JSON text

`Reader.step` takes one lexeme at a time and keeps the containers that are still open, each with
what it holds so far.  What may come next is a state of its own, so a comma that no value follows
and a key without its colon are refused where they stand.

A container around which 127 others are open is unreadable, as is an object with a key that has no
text.  What they hold has to be well formed all the same.

There are two readings of a text.  `Json.Written.ofText?` keeps what is written, for records that
ignore some of it.  `Json.ofText?` gives a value, and refuses a text with unreadable parts.
-/

namespace Scim.Json

namespace Reader

/-- A container that is still open; its contents are newest first. -/
inductive Frame where
  | array (items : List Written)
  /-- Members, unless a key had no text, and the key whose value is due. -/
  | object (members : Option (List (String × Written))) (key : Option String)

/-- What may come next. -/
inductive Due where
  /-- A value. -/
  | value
  /-- A value or the end of the array. -/
  | firstItem
  /-- A key or the end of the object. -/
  | firstKey
  /-- A key. -/
  | key
  /-- The colon after a key. -/
  | colon
  /-- A comma or the end of the container. -/
  | next
  /-- Nothing: the value is complete. -/
  | nothing (result : Written)

/-- The open containers, innermost first, and what may come next. -/
structure State where
  /-- The containers that are still open, innermost first. -/
  frames : List Frame := []
  /-- What may come next. -/
  due : Due := .value

/-- How many containers may be open at once. -/
def maxDepth : Nat := 127

/-- Puts a finished value where it belongs. -/
def put (value : Written) : List Frame → State
  | [] => ⟨[], .nothing value⟩
  | .array items :: outer => ⟨.array (value :: items) :: outer, .next⟩
  | .object members key :: outer =>
      let members := do
        let members ← members
        let key ← key
        some ((key, value) :: members)
      ⟨.object members none :: outer, .next⟩

/-- Puts a finished container where it belongs. -/
def putContainer (value : Written) (outer : List Frame) : State :=
  put (if outer.length < maxDepth then value else .unreadable) outer

/-- The value that a word stands for. -/
def wordValue? (word : List Char) : Option Written :=
  if word = ['n', 'u', 'l', 'l'] then some .null
  else if word = ['t', 'r', 'u', 'e'] then some (.bool true)
  else if word = ['f', 'a', 'l', 's', 'e'] then some (.bool false)
  else (Literal.ofText? word).map fun l => (l.number?.map Written.number).getD .unreadable

/-- Takes the first lexeme of a value. -/
def beginValue (s : State) : Lexeme → Option State
  | .string text => some (put ((text.map Written.string).getD .unreadable) s.frames)
  | .word text => (wordValue? text).map fun v => put v s.frames
  | .openArray => some ⟨.array [] :: s.frames, .firstItem⟩
  | .openObject => some ⟨.object (some []) none :: s.frames, .firstKey⟩
  | _ => none

/-- Takes a key. -/
def takeKey (s : State) : Lexeme → Option State
  | .string text =>
      match s.frames with
      | .object members _ :: outer => some ⟨.object members text :: outer, .colon⟩
      | _ => none
  | _ => none

/-- Closes the innermost container. -/
def closeFrame (s : State) : Lexeme → Option State
  | .closeArray =>
      match s.frames with
      | .array items :: outer => some (putContainer (.array items.reverse) outer)
      | _ => none
  | .closeObject =>
      match s.frames with
      | .object members _ :: outer =>
          let value := (members.map fun ms => Written.object ms.reverse).getD .unreadable
          some (putContainer value outer)
      | _ => none
  | _ => none

/-- Takes one lexeme. -/
def step (s : State) (l : Lexeme) : Option State :=
  match s.due with
  | .value => beginValue s l
  | .firstItem => if l = .closeArray then closeFrame s l else beginValue s l
  | .firstKey => if l = .closeObject then closeFrame s l else takeKey s l
  | .key => takeKey s l
  | .colon => if l = .colon then some { s with due := .value } else none
  | .next =>
      if l = .comma then
        match s.frames with
        | .array _ :: _ => some { s with due := .value }
        | .object _ _ :: _ => some { s with due := .key }
        | [] => none
      else closeFrame s l
  | .nothing _ => none

end Reader

/-- Reads one written value that makes up the whole text. -/
def Written.ofText? (s : String) : Option Written := do
  let final ← (← lexemes? s.toList).foldlM Reader.step {}
  match final.due with
  | .nothing value => some value
  | _ => none

/-- Reads one value that makes up the whole text. -/
def ofText? (s : String) : Option Json := (Written.ofText? s).bind Written.json?

end Scim.Json
