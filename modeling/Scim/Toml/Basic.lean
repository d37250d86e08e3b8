/-!
# TOML tables

A document is a table of entries.  A table remembers how it came about, because that decides what
may still be added to it.

* A *header* names a table on a line of its own, once.
* A header *implies* the tables on the way to its table.  An implied table can get a header later.
* A *dotted* key makes the tables on the way to its last part.  Other dotted keys add to them.
* An *inline* table is complete.

A header between double brackets names a new table each time, and its key stands for all of them.
Another key that passes through it goes on in the last one.
-/

namespace Scim.Toml

/-- How a table came about. -/
inductive Origin where
  | header
  | implied
  | dotted
  | inline
  deriving DecidableEq, Repr

/-- A value. -/
inductive Value where
  | string (text : String)
  | integer (value : Int)
  /-- A number that is not an integer, as it is written. -/
  | float (text : String)
  | boolean (value : Bool)
  /-- A date, a time or both, as it is written. -/
  | moment (text : String)
  | array (items : List Value)
  | table (origin : Origin) (entries : List (String × Value))
  /-- The tables that one header names. -/
  | tables (earlier : List (List (String × Value))) (last : List (String × Value))

/-- The entries of a table. -/
abbrev Entries := List (String × Value)

namespace Entries

/-- The entries with a value at a key, in the place of the value that was there or at the end. -/
def put (key : String) (value : Value) (entries : Entries) : Entries :=
  if (entries.lookup key).isSome then
    entries.map fun e => if e.1 = key then (key, value) else e
  else entries ++ [(key, value)]

/-- Adds a value at a dotted key.  The last table on the way has to be a dotted one, and those
before it may also be implied ones. -/
def insert? (value : Value) : List String → Entries → Option Entries
  | [], _ => none
  | [key], entries =>
      if (entries.lookup key).isSome then none else some (entries.put key value)
  | key :: rest, entries =>
      match entries.lookup key with
      | none => do
          let inner ← insert? value rest []
          some (entries.put key (.table .dotted inner))
      | some (.table origin inner) =>
          if origin = .dotted ∨ (origin = .implied ∧ 1 < rest.length) then do
            let inner ← insert? value rest inner
            some (entries.put key (.table origin inner))
          else none
      | some (.tables earlier last) =>
          if 1 < rest.length then do
            let last ← insert? value rest last
            some (entries.put key (.tables earlier last))
          else none
      | some _ => none

/-- Changes what stands at the key of a header, and implies the tables on the way to it. -/
def head? (change : Option Value → Option Value) : List String → Entries → Option Entries
  | [], _ => none
  | [key], entries => (change (entries.lookup key)).map fun v => entries.put key v
  | key :: rest, entries =>
      match entries.lookup key with
      | none => do
          let inner ← head? change rest []
          some (entries.put key (.table .implied inner))
      | some (.table origin inner) =>
          if origin = .inline then none
          else do
            let inner ← head? change rest inner
            some (entries.put key (.table origin inner))
      | some (.tables earlier last) => do
          let last ← head? change rest last
          some (entries.put key (.tables earlier last))
      | some _ => none

/-- Adds the table of a header. -/
def define? : List String → Entries → Option Entries :=
  head? fun
    | none => some (.table .header [])
    | some (.table .implied inner) => some (.table .header inner)
    | some _ => none

/-- Adds another table of a header between double brackets. -/
def append? : List String → Entries → Option Entries :=
  head? fun
    | none => some (.tables [] [])
    | some (.tables earlier last) => some (.tables (earlier ++ [last]) [])
    | some _ => none

/-- Changes the table at a path. -/
def changeAt? (change : Entries → Option Entries) : List String → Entries → Option Entries
  | [], entries => change entries
  | key :: rest, entries =>
      match entries.lookup key with
      | some (.table origin inner) => do
          let inner ← changeAt? change rest inner
          some (entries.put key (.table origin inner))
      | some (.tables earlier last) => do
          let last ← changeAt? change rest last
          some (entries.put key (.tables earlier last))
      | _ => none

end Entries

end Scim.Toml
