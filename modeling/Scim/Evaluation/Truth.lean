import Scim.Evaluation.Comparison
import Scim.Evaluation.Presence
import Scim.Filter.Tree

/-!
# Truth of a filter

A filter tree is true or false once every path leads to something or to nothing.  The meaning of
the paths is a parameter.  A tree that is not well formed is false, and so are its parts on their
own.
-/

namespace Scim.Filter.Tree

/-- What the paths of a filter lead to. -/
abbrev Meaning := String → Option Described

/-- The path of a leaf. -/
def path? : Tree → Option String
  | node t _ _ => if t.kind = .path then some t.text else none
  | nil => none

/-- The constant of a node. -/
def constant? : Tree → Option Constant
  | node t _ _ => t.constant?
  | nil => none

/-- Whether what a path leads to is assigned. -/
def isPresent (meaning : Meaning) (path : String) : Bool :=
  (meaning path).any fun d => d.descriptor.isAssigned d.value

/-- Whether the tree is true. -/
def eval (meaning : Meaning) : Tree → Bool
  | nil => false
  | node t l r =>
      match t.operator? with
      | none => false
      | some .and => !l.isNil && !r.isNil && l.eval meaning && r.eval meaning
      | some .or => !l.isNil && !r.isNil && (l.eval meaning || r.eval meaning)
      | some .not => !l.isNil && !l.eval meaning
      | some .pr => l.path?.any (isPresent meaning)
      | some op =>
          match l.path?, r.constant? with
          | some path, some c => Comparison.relates op (meaning path) c
          | _, _ => false

end Scim.Filter.Tree
