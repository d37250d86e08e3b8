import Scim.Filter.Constant
import Scim.Filter.Operator
import Scim.Json.Writer
import Scim.Number.Conversion
import Scim.Schema.Attribute
import Scim.Text.Blank
import Scim.Text.LowerCase
import Scim.Time.Instant

/-!
# Comparison with a constant

A relational operator compares what a path leads to with a constant.

* Nothing, and `null`, are equal to the constant `null` and differ from every other constant.
* A present value differs from `null` and is in no other relation to it.
* A value and a constant of different kinds are in no relation, not even `ne`.
* Arrays that a path has collected below a multi-valued attribute are compared element by
  element: one element has to be in the relation, and for `ne` none may be equal.
* The present value of a complex or multi-valued attribute is in no relation to any constant.

Text is compared character by character after lower-casing, unless the attribute is case exact.
Two date-times are compared as instants, and as text when one of them is not a date-time.
-/

namespace Scim

/-- A value and the attribute that describes it. -/
structure Described where
  /-- The value. -/
  value : Json
  /-- Its description. -/
  descriptor : Attribute

namespace Comparison

/-- Whether an operator of order holds for two sides in this order. -/
def holds (op : Filter.Operator) (ordering : Ordering) : Bool :=
  match op with
  | .eq => ordering == .eq
  | .ne => ordering != .eq
  | .gt => ordering == .gt
  | .ge => ordering != .lt
  | .lt => ordering == .lt
  | .le => ordering != .gt
  | _ => false

/-- Compares two texts as they are. -/
def exactTexts (op : Filter.Operator) (v c : List Char) : Bool :=
  match op with
  | .sw => c.isPrefixOf v
  | .ew => c.isSuffixOf v
  | .co => Text.occursIn c v
  | _ => holds op (compare v c)

/-- Compares two texts, with or without regard to case. -/
def texts (op : Filter.Operator) (caseExact : Bool) (v c : String) : Bool :=
  if caseExact then exactTexts op v.toList c.toList
  else exactTexts op (Text.lowerCase v.toList) (Text.lowerCase c.toList)

/-- Whether the operator looks at parts of texts. -/
def looksInside : Filter.Operator → Bool
  | .sw | .ew | .co => true
  | _ => false

/-- Compares two date-times. -/
def dateTimes (op : Filter.Operator) (caseExact : Bool) (v c : String) : Bool :=
  if looksInside op then texts op caseExact v c
  else
    match Instant.ofStrict? v.toList, Instant.ofStrict? c.toList with
    | some i, some j => holds op (i.compare j)
    | _, _ => texts op caseExact v c

/-- Compares two truth values, which have no order. -/
def truths (op : Filter.Operator) (v c : Bool) : Bool :=
  match op with
  | .eq => v == c
  | .ne => v != c
  | _ => false

/-- The decimal that a number stands for. -/
def decimal? (n : Json.Number) : Option Decimal :=
  match n.int64?, n with
  | some i, _ => some (.ofInt i)
  | none, .integer _ => Decimal.ofPlain? n.text.toList
  | none, .float x => Decimal.ofDouble? x

/-- Compares a single present value of a type with a constant. -/
def single (op : Filter.Operator) (a : Attribute) (v : Json) (c : Filter.Constant) : Bool :=
  if c = .null then op = .ne
  else
    match a.type, v, c with
    | .string, .string v, .string c => texts op a.caseExact v c
    | .reference, .string v, .string c => texts op a.caseExact v c
    | .dateTime, .string v, .string c => dateTimes op a.caseExact v c
    | .boolean, .bool v, .boolean c => truths op v c
    | .integer, .number n, .integer c => n.int64?.any fun i => holds op (compare i c)
    | .decimal, .number n, .decimal c => (decimal? n).any fun d => holds op (d.compare c)
    | _, _, _ => false

/-- Compares a present value of a simple attribute, or the values collected for it. -/
def present (op : Filter.Operator) (a : Attribute) (v : Json) (c : Filter.Constant) : Bool :=
  match v with
  | .array items =>
      if op = .ne then !items.any fun v => single .eq a v c
      else items.any fun v => single op a v c
  | v => single op a v c

/-- Compares nothing with a constant. -/
def absent (op : Filter.Operator) (c : Filter.Constant) : Bool :=
  match op with
  | .eq => c = .null
  | .ne => c ≠ .null
  | _ => false

/-- Compares what a path leads to with a constant. -/
def relates (op : Filter.Operator) (found : Option Described) (c : Filter.Constant) : Bool :=
  match found with
  | none => absent op c
  | some ⟨v, a⟩ =>
      if v.isNull then absent op c
      else if a.multiValued || a.isComplex then false
      else present op a v c

end Comparison

end Scim
