import Scim.Text.CaseRuns
import Scim.Text.CaseClasses

/-!
# Full lower-casing

Text that is compared without regard to case is lower-cased as a whole.  Each capital becomes
its small letter, with two exceptions.

* `İ` becomes two characters, `i` and a combining dot above.
* `Σ` becomes the final sigma `ς` at the end of a word and `σ` elsewhere.  It ends a word when,
  case-ignorable characters passed over, a cased character comes before it and none comes after
  it.

The walk carries the characters already passed, newest first, since both neighbours of a sigma
are looked at in the text as it was written.
-/

namespace Scim.Text

/-- Whether the nearest character that is not case-ignorable is cased. -/
def meetsCased (s : List Char) : Bool :=
  match s.dropWhile isCaseIgnorable with
  | [] => false
  | c :: _ => isCased c

/-- The small letter of a capital that has a single one, and any other character itself. -/
def smallLetter (c : Char) : Char :=
  match caseRuns.find? (CaseRun.covers · c.toNat) with
  | some run => Char.ofNat (c.toNat + run.shift).toNat
  | none => c

/-- The lower-cased form of one character between the characters `before`, newest first, and
the characters `after`. -/
def lowerAt (before : List Char) (c : Char) (after : List Char) : List Char :=
  if c.toNat < 0x80 then [c.toLower]
  else if c = 'Σ' then [if meetsCased before && !meetsCased after then 'ς' else 'σ']
  else if c = 'İ' then ['i', '\u0307']
  else [smallLetter c]

/-- Lower-cases the rest of a text whose characters `before` have been passed. -/
def lowerFrom (before : List Char) : List Char → List Char
  | [] => []
  | c :: after => lowerAt before c after ++ lowerFrom (c :: before) after

/-- The lower-cased text. -/
def lowerCase (s : List Char) : List Char := lowerFrom [] s

/-! ## Both forms of sigma -/

example : lowerCase ['Ο', 'Σ', '.', 'Σ'] = ['ο', 'σ', '.', 'ς'] := by decide +kernel

example : lowerCase ['Σ', ' ', 'İ'] = ['σ', ' ', 'i', '\u0307'] := by decide +kernel

end Scim.Text
