import Scim.Text.Folding

/-!
# Operators of the filter language

Ten relational operators compare an attribute with a constant or ask for its presence; three
logical operators join filters.  A keyword is recognised whatever its case.  Relational operators
bind tightest, then `not`, `and` and `or`.  Only `not` groups to the right.
-/

namespace Scim.Filter

/-- An operator. -/
inductive Operator where
  | and
  | or
  | not
  /-- Equal. -/
  | eq
  /-- Not equal. -/
  | ne
  /-- Starts with. -/
  | sw
  /-- Ends with. -/
  | ew
  /-- Contains. -/
  | co
  /-- Greater than. -/
  | gt
  /-- Greater than or equal. -/
  | ge
  /-- Less than. -/
  | lt
  /-- Less than or equal. -/
  | le
  /-- Present. -/
  | pr
  deriving DecidableEq, Repr

/-- The side on which operators of one strength are grouped first. -/
inductive Side where
  | left
  | right
  deriving DecidableEq, Repr

namespace Operator

/-- Every operator. -/
def all : List Operator := [and, or, not, eq, ne, sw, ew, co, gt, ge, lt, le, pr]

/-- The keyword. -/
def keyword : Operator → String
  | and => "and"
  | or => "or"
  | not => "not"
  | eq => "eq"
  | ne => "ne"
  | sw => "sw"
  | ew => "ew"
  | co => "co"
  | gt => "gt"
  | ge => "ge"
  | lt => "lt"
  | le => "le"
  | pr => "pr"

/-- The operator of a keyword in any case. -/
def ofWord? (word : String) : Option Operator := all.find? fun op => Text.alike op.keyword word

/-- Whether the operands are filters. -/
def isLogical : Operator → Bool
  | and | or | not => true
  | _ => false

/-- How tightly the operator binds. -/
def precedence : Operator → Nat
  | or => 1
  | and => 2
  | not => 3
  | _ => 4

/-- How operators of the same strength are grouped. -/
def associativity : Operator → Side
  | not => .right
  | _ => .left

/-- The number of operands. -/
def arity : Operator → Nat
  | not | pr => 1
  | _ => 2

/-- Whether an operator on the stack takes its operands before `incoming` is pushed. -/
def yieldsTo (incoming stacked : Operator) : Bool :=
  match incoming.associativity with
  | .left => incoming.precedence ≤ stacked.precedence
  | .right => incoming.precedence < stacked.precedence

@[simp] theorem mem_all (op : Operator) : op ∈ all := by cases op <;> decide

theorem ofWord?_keyword (op : Operator) : ofWord? op.keyword = some op := by
  cases op <;> decide

end Operator

end Scim.Filter
