import Scim.Walk.Basic

/-!
# Walks through one resource

The walk hands every visit to a visitor, which says whether to go below it.  What is not in the
resource is visited as `null`, so a visitor sees every attribute at the top.  The walk goes below
arrays of multi-valued attributes and below objects of complex ones.

The visitor works in any monad.  In one with errors the first error ends the walk.
-/

namespace Scim.Walk

/-- What is done at each visit of a walk through one resource. -/
abbrev Visitor (m : Type → Type) := Visit Json → m Flow

variable {m : Type → Type} [Monad m]

/-- Does something with every item of a list and its position, from a position on. -/
def eachFrom (position : Nat) (action : Nat → Json → m Unit) : List Json → m Unit
  | [] => pure ()
  | v :: rest => do
      action position v
      eachFrom (position + 1) action rest

/-- Visits an element and goes below it with `inner`. -/
def visitElement (visitor : Visitor m) (inner : List (Frame Json) → Members → m Unit)
    (visit : Visit Json) : m Unit := do
  match ← visitor visit with
  | .skip => pure ()
  | .goOn =>
      match visit.content with
      | .object members =>
          if visit.descriptor.isComplex && !visit.descriptor.multiValued then
            inner visit.below members
          else pure ()
      | _ => pure ()

/-- Visits an attribute as a whole and goes below it with `inner`. -/
def visitWhole (visitor : Visitor m) (inner : List (Frame Json) → Members → m Unit)
    (visit : Visit Json) : m Unit := do
  match ← visitor visit with
  | .skip => pure ()
  | .goOn =>
      let a := visit.descriptor
      match visit.content with
      | .array items =>
          if a.multiValued then
            eachFrom 0 (fun i v => visitElement visitor inner ⟨a.element, v, visit.below, some i⟩)
              items
          else pure ()
      | .object members =>
          if a.isComplex && !a.multiValued then inner visit.below members else pure ()
      | _ => pure ()

mutual

/-- Walks through the value of one attribute of an object. -/
def walkAttribute (visitor : Visitor m) (ancestors : List (Frame Json)) (members : Members) :
    Attribute → m Unit
  | ⟨traits, subs⟩ =>
      visitWhole visitor (fun ancestors members => walkAll visitor ancestors members subs)
        ⟨⟨traits, subs⟩, members.valueOf traits.name, ancestors, none⟩
termination_by structural a => a

/-- Walks through the values of the attributes of an object. -/
def walkAll (visitor : Visitor m) (ancestors : List (Frame Json)) (members : Members) :
    List Attribute → m Unit
  | [] => pure ()
  | a :: rest => do
      walkAttribute visitor ancestors members a
      walkAll visitor ancestors members rest
termination_by structural as => as

end

/-- Walks through a resource. -/
def through (visitor : Visitor m) (schema : Schema) (members : Members) : m Unit :=
  walkAll visitor [] members schema.attributes

end Scim.Walk
