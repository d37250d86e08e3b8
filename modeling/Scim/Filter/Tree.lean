import Scim.Filter.Token

/-!
# Filter trees

A filter is a binary tree of tokens.  Its leaves are paths and constants, its inner nodes
operators; an operator with a single operand has it on the left.  `Tree.nil` stands for a child
that is not there.

`Tree.display` writes a tree as a filter.  Every `and` and `or` has parentheses, so reading the
text groups the operands in the same way.
-/

namespace Scim.Filter

/-- A filter tree, or the absence of one. -/
inductive Tree where
  | nil
  | node (token : Token) (left right : Tree)

namespace Tree

instance : Inhabited Tree := ⟨nil⟩

/-- A tree of one token. -/
def leaf (token : Token) : Tree := .node token .nil .nil

/-- Whether there is no tree. -/
def isNil : Tree → Bool
  | nil => true
  | node .. => false

/-- The operator at the root. -/
def operator? : Tree → Option Operator
  | nil => none
  | node t _ _ => t.operator?

/-- The kind of the token at the root. -/
def kind? : Tree → Option Token.Kind
  | nil => none
  | node t _ _ => some t.kind

/-- The number of tokens on the longest way from the root to a leaf. -/
def height : Tree → Nat
  | nil => 0
  | node _ l r => 1 + max l.height r.height

/-- The number of tokens with a child. -/
def innerCount : Tree → Nat
  | nil => 0
  | node _ l r => (if l.isNil && r.isNil then 0 else 1) + l.innerCount + r.innerCount

/-- The number of tokens without a child. -/
def leafCount : Tree → Nat
  | nil => 0
  | node _ l r => (if l.isNil && r.isNil then 1 else 0) + l.leafCount + r.leafCount

/-- The tokens in pre-order, each with its depth. -/
def preorder (depth : Nat) : Tree → List (Nat × Token)
  | nil => []
  | node t l r => (depth, t) :: l.preorder (depth + 1) ++ r.preorder (depth + 1)

/-- The tree as filter text. -/
def display : Tree → String
  | nil => ""
  | node t l r =>
      match t.operator? with
      | none => t.text
      | some op =>
          if op = .not ∧ !l.isNil then "not (" ++ l.display ++ ")"
          else if op = .pr ∧ !l.isNil then l.display ++ " pr"
          else if l.isNil || r.isNil then t.text
          else if op = .and ∨ op = .or then
            "(" ++ l.display ++ " " ++ op.keyword ++ " " ++ r.display ++ ")"
          else l.display ++ " " ++ op.keyword ++ " " ++ r.display

end Tree

end Scim.Filter
