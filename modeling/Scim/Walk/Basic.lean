import Scim.Schema.Basic

/-!
# Visits

A walk visits the attributes of a resource depth first, in the order of the schema.  A
multi-valued attribute is visited as a whole and then once per element, where the elements are
described by its single-valued twin.

A visit knows the containers around it, the outermost first.  The dotted path of the visit is
made of their names; an element adds none, since its array has given the name already.
-/

namespace Scim.Walk

/-- Whether a walk goes below what it has just visited. -/
inductive Flow where
  | goOn
  | skip
  deriving DecidableEq, Repr

/-- A container around a visit, with what the walk knows about it. -/
structure Frame (α : Type) where
  /-- The description of the container. -/
  descriptor : Attribute
  /-- What the walk knows about it. -/
  content : α
  /-- Whether it is one element of a multi-valued attribute. -/
  isElement : Bool

/-- A visit, with what the walk knows about what is visited. -/
structure Visit (α : Type) where
  /-- The description of what is visited. -/
  descriptor : Attribute
  /-- What the walk knows about it. -/
  content : α
  /-- The containers around it, the outermost first. -/
  ancestors : List (Frame α)
  /-- The position in its array, if it is an element. -/
  element : Option Nat

namespace Visit

variable {α : Type}

/-- The visit as a container around what is below it. -/
def frame (v : Visit α) : Frame α := ⟨v.descriptor, v.content, v.element.isSome⟩

/-- The containers around what is below the visit. -/
def below (v : Visit α) : List (Frame α) := v.ancestors ++ [v.frame]

/-- The names that lead to the visit. -/
def names (v : Visit α) : List String :=
  (v.below.filter fun f => !f.isElement).map fun f => f.descriptor.name

/-- The dotted path of the visit. -/
def path (v : Visit α) : String := String.intercalate "." v.names

end Visit

end Scim.Walk
