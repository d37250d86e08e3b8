import Scim.Walk.Basic

/-!
# Walks through a resource beside a reference

The walk visits a resource together with another version of it, the reference.  The visitor may
change what it visits.  The reference stays as it is.

* An attribute is visited beside the reference's value of it, if there is one.
* An attribute that is missing is visited as `null`.  What the visitor puts there becomes a new
  member.  A member that is `null` after its visit is removed.
* An element of a complex attribute is visited once beside every element of the reference that
  is *paired* with it, or once beside nothing.  Other elements are visited beside nothing.

A visitor that ends the walk with an error does not undo what has been changed so far, so the
changed value is returned beside the error.  A member whose visit ends the walk stays even if it
is `null`, and what would have become a new member is lost.
-/

namespace Scim.Walk

/-- A value after a walk, and how the walk ended. -/
structure Edited (ε α : Type) where
  /-- The value as far as it has been changed. -/
  value : α
  /-- How the walk ended. -/
  result : Except ε Unit

instance {ε α : Type} [DecidableEq ε] [DecidableEq α] : DecidableEq (Edited ε α)
  | ⟨v, .ok _⟩, ⟨w, .ok _⟩ => decidable_of_iff (v = w) (by simp)
  | ⟨v, .error e⟩, ⟨w, .error f⟩ => decidable_of_iff (v = w ∧ e = f) (by simp)
  | ⟨_, .ok _⟩, ⟨_, .error _⟩ | ⟨_, .error _⟩, ⟨_, .ok _⟩ => isFalse (by simp)

/-- A walk through a resource beside a reference. -/
structure Editor (m : Type → Type) (ε : Type) where
  /-- What is done at each visit, with the value that is visited. -/
  visit : Visit (Option Json) → Json → m (Json × Except ε Flow)
  /-- Whether an element and an element of the reference are versions of each other. -/
  pairs : Attribute → Json → Json → Bool

/-- Pairs elements that have the same value of the key that tells elements apart. -/
def pairsByKey (a : Attribute) (candidate reference : Json) : Bool :=
  match a.indexKey, candidate, reference with
  | some key, .object c, .object r =>
      match Members.named? c key, Members.named? r key with
      | some v, some w => !v.isNull && v == w
      | _, _ => false
  | _, _, _ => false

namespace Editor

variable {m : Type → Type} [Monad m] {ε : Type}

/-- How the walk goes on below an object, beside the members of the reference. -/
abbrev Inner (m : Type → Type) (ε : Type) :=
  List (Frame (Option Json)) → Option Members → Members → m (Edited ε Members)

/-- Goes below an object. -/
def belowObject (inner : Inner m ε) (visit : Visit (Option Json)) (members : Members) :
    m (Edited ε Json) := do
  let edited ← inner visit.below (visit.content.bind Json.object?) members
  pure ⟨.object edited.value, edited.result⟩

/-- Visits an element and goes below it. -/
def visitElement (w : Editor m ε) (inner : Inner m ε) (visit : Visit (Option Json)) (v : Json) :
    m (Edited ε Json) := do
  match ← w.visit visit v with
  | (v, .error e) => pure ⟨v, .error e⟩
  | (v, .ok .skip) => pure ⟨v, .ok ()⟩
  | (v, .ok .goOn) =>
      match v with
      | .object members =>
          if visit.descriptor.isComplex && !visit.descriptor.multiValued then
            belowObject inner visit members
          else pure ⟨v, .ok ()⟩
      | _ => pure ⟨v, .ok ()⟩

/-- Visits an element once beside each of its partners. -/
def visitBeside (w : Editor m ε) (inner : Inner m ε) (visit : Visit (Option Json)) (v : Json) :
    List Json → m (Edited ε Json)
  | [] => pure ⟨v, .ok ()⟩
  | partner :: rest => do
      match ← w.visitElement inner { visit with content := some partner } v with
      | ⟨v, .error e⟩ => pure ⟨v, .error e⟩
      | ⟨v, .ok ()⟩ => w.visitBeside inner visit v rest

/-- The elements of the reference that are paired with an element. -/
def partners (w : Editor m ε) (a : Attribute) (reference : Option Json) (v : Json) : List Json :=
  if a.isComplex then
    ((reference.bind Json.array?).getD []).filter fun r => w.pairs a v r
  else []

/-- Visits the elements of an array from a position on. -/
def visitElements (w : Editor m ε) (inner : Inner m ε) (whole : Visit (Option Json))
    (position : Nat) : List Json → m (Edited ε (List Json))
  | [] => pure ⟨[], .ok ()⟩
  | v :: rest => do
      let a := whole.descriptor
      let visit : Visit (Option Json) := ⟨a.element, none, whole.below, some position⟩
      let edited ← match w.partners a whole.content v with
        | [] => w.visitElement inner visit v
        | found => w.visitBeside inner visit v found
      match edited with
      | ⟨v, .error e⟩ => pure ⟨v :: rest, .error e⟩
      | ⟨v, .ok ()⟩ => do
          let others ← w.visitElements inner whole (position + 1) rest
          pure ⟨v :: others.value, others.result⟩

/-- Visits an attribute as a whole and goes below it. -/
def visitWhole (w : Editor m ε) (inner : Inner m ε) (visit : Visit (Option Json)) (v : Json) :
    m (Edited ε Json) := do
  match ← w.visit visit v with
  | (v, .error e) => pure ⟨v, .error e⟩
  | (v, .ok .skip) => pure ⟨v, .ok ()⟩
  | (v, .ok .goOn) =>
      let a := visit.descriptor
      match v with
      | .array items =>
          if a.multiValued then do
            let edited ← w.visitElements inner visit 0 items
            pure ⟨.array edited.value, edited.result⟩
          else pure ⟨v, .ok ()⟩
      | .object members =>
          if a.isComplex && !a.multiValued then belowObject inner visit members
          else pure ⟨v, .ok ()⟩
      | _ => pure ⟨v, .ok ()⟩

/-- Puts the edited value of an attribute back into its object. -/
def store (members : Members) (name : String) (edited : Edited ε Json) : Edited ε Members :=
  match members.key? name, edited.result with
  | some key, .error e => ⟨members.put key edited.value, .error e⟩
  | some key, .ok () =>
      ⟨if edited.value.isNull then members.remove key else members.put key edited.value, .ok ()⟩
  | none, .error e => ⟨members, .error e⟩
  | none, .ok () => ⟨if edited.value.isNull then members else members.put name edited.value, .ok ()⟩

mutual

/-- Walks through the value of one attribute of an object. -/
def walkAttribute (w : Editor m ε) (ancestors : List (Frame (Option Json)))
    (reference : Option Members) (members : Members) : Attribute → m (Edited ε Members)
  | ⟨traits, subs⟩ => do
      let counterpart := reference.bind fun r => r.named? traits.name
      let edited ← w.visitWhole
        (fun ancestors reference members => walkAll w ancestors reference members subs)
        ⟨⟨traits, subs⟩, counterpart, ancestors, none⟩ (members.valueOf traits.name)
      pure (store members traits.name edited)
termination_by structural a => a

/-- Walks through the values of the attributes of an object. -/
def walkAll (w : Editor m ε) (ancestors : List (Frame (Option Json)))
    (reference : Option Members) (members : Members) : List Attribute → m (Edited ε Members)
  | [] => pure ⟨members, .ok ()⟩
  | a :: rest => do
      match ← walkAttribute w ancestors reference members a with
      | ⟨members, .error e⟩ => pure ⟨members, .error e⟩
      | ⟨members, .ok ()⟩ => walkAll w ancestors reference members rest
termination_by structural as => as

end

/-- Walks through a resource beside a reference, if there is one. -/
def through (w : Editor m ε) (schema : Schema) (reference : Option Members) (members : Members) :
    m (Edited ε Members) :=
  w.walkAll [] reference members schema.attributes

end Editor

end Scim.Walk
