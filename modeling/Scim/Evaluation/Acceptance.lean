import Scim.Evaluation.Truth
import Scim.Path.Descent

/-!
# Values that a filter accepts

A filter accepts a value when it is true of what its paths lead to below the value.  A
path can have a filter of its own, even one that stands in a leaf of a tree that was put together
by hand, so acceptance and resolution call each other.

The calls end because the filter in a path is shorter than the path, and no path in a filter
is longer than the filter.  `acceptsWithin` has the number of levels as an argument, and
`accepts` gives it one level for each byte of the longest path and one more.
-/

namespace Scim

namespace Filter.Tree

/-- The length in bytes of the longest path of the tree. -/
def longestPath : Tree → Nat
  | nil => 0
  | node t l r =>
      max (if t.kind = .path then t.text.utf8ByteSize else 0) (max l.longestPath r.longestPath)

/-- What a path leads to below a value, where filters in it accept what `accept` says. -/
def resolveBy (accept : Path.Acceptance) (path : String) (a : Attribute) (v : Json) :
    Except Path.Error Described := do
  let steps ← Path.compile defaultMaxLength path
  Path.follow accept path steps a v

/-- Whether the filter accepts a value, with filters in paths read down to a number of levels. -/
def acceptsWithin : Nat → Tree → Attribute → Json → Bool
  | 0, _, _, _ => false
  | levels + 1, tree, a, v =>
      tree.eval fun path => (resolveBy (acceptsWithin levels) path a v).toOption

/-- Whether the filter accepts a value that the attribute describes. -/
def accepts (tree : Tree) (a : Attribute) (v : Json) : Bool :=
  acceptsWithin (tree.longestPath + 1) tree a v

end Filter.Tree

/-- What a path leads to below a value that the attribute describes. -/
def Path.resolve (path : String) (a : Attribute) (v : Json) : Except Path.Error Described :=
  Filter.Tree.resolveBy Filter.Tree.accepts path a v

end Scim
