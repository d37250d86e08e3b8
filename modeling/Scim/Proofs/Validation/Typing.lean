import Scim.Proofs.Json.Names
import Scim.Proofs.Validation.Conformance

/-!
# Well-typed values

What it means that a value has the type and the cardinality of its attribute, said without the
check: `WellTyped a v` has one rule for each form that a value can take.

* `null` is a value of every attribute.
* An array belongs to a multi-valued attribute, and each item to the single-valued twin.
* An object belongs to a complex attribute.  Every member whose key is, in any case, the name of
  a sub-attribute belongs to that sub-attribute; members of other keys are free.
* Any other value has the form of the type.

`checkTypes_of_typedBelow` says that the check accepts every well-typed resource.
-/

namespace Scim

/-- A value of the type and the cardinality of an attribute. -/
inductive WellTyped : Attribute → Json → Prop where
  | null {a : Attribute} : WellTyped a .null
  | array {a : Attribute} {items : List Json} (multi : a.multiValued = true)
      (elements : ∀ v ∈ items, WellTyped a.singleValued v) : WellTyped a (.array items)
  | object {a : Attribute} {members : Members} (single : a.multiValued = false)
      (complex : a.isComplex = true)
      (below : ∀ m ∈ members, ∀ s ∈ a.subAttributes, Text.alike m.1 s.name = true →
        WellTyped s m.2) : WellTyped a (.object members)
  | simple {a : Attribute} {v : Json} (single : a.multiValued = false)
      (simple : a.isComplex = false) (form : Validation.hasType a.type v = true) : WellTyped a v

/-- Members whose values belong to the sub-attributes that their keys name. -/
def TypedBelow (a : Attribute) (members : Members) : Prop :=
  ∀ m ∈ members, ∀ s ∈ a.subAttributes, Text.alike m.1 s.name = true → WellTyped s m.2

variable {a s : Attribute} {members : Members} {v : Json}

namespace WellTyped

/-- Only a single-valued complex attribute has objects, and their members are well-typed. -/
theorem object_iff :
    WellTyped a (.object members) ↔
      a.multiValued = false ∧ a.isComplex = true ∧ TypedBelow a members := by
  constructor
  · intro h
    cases h with
    | object single complex below => exact ⟨single, complex, below⟩
    | simple _ simple form =>
        rw [Conforms.isComplex_of_hasForm (hasForm_iff.mpr form)] at simple
        cases simple
  · rintro ⟨single, complex, below⟩
    exact .object single complex below

/-- Only a multi-valued attribute has arrays, and their items are single values. -/
theorem array_iff {items : List Json} :
    WellTyped a (.array items) ↔
      a.multiValued = true ∧ ∀ w ∈ items, WellTyped a.singleValued w := by
  constructor
  · intro h
    cases h with
    | array multi elements => exact ⟨multi, elements⟩
    | simple _ _ form => exact absurd (hasForm_iff.mpr form) not_hasForm_array
  · rintro ⟨multi, elements⟩
    exact .array multi elements

/-- A value of a multi-valued attribute is `null` or an array. -/
theorem of_multiValued (h : WellTyped a v) (hmulti : a.multiValued = true) :
    v = .null ∨ ∃ items, v = .array items := by
  cases h with
  | null => exact Or.inl rfl
  | array _ _ => exact Or.inr ⟨_, rfl⟩
  | object single _ _ =>
      rw [hmulti] at single
      cases single
  | simple single _ _ =>
      rw [hmulti] at single
      cases single

end WellTyped

/-- What is read under the name of a sub-attribute belongs to it. -/
theorem TypedBelow.named? (h : TypedBelow a members) (hs : s ∈ a.subAttributes)
    (hv : members.named? s.name = some v) : WellTyped s v := by
  obtain ⟨key, halike, hmem⟩ := Members.mem_of_named? hv
  exact h (key, v) hmem s hs halike

theorem TypedBelow.valueOf (h : TypedBelow a members) (hs : s ∈ a.subAttributes) :
    WellTyped s (members.valueOf s.name) := by
  unfold Members.valueOf
  cases hv : members.named? s.name with
  | none => exact .null
  | some v => exact h.named? hs hv

/-! ## The check -/

/-- A well-typed value conforms: whichever member a name stands for belongs to its attribute. -/
theorem WellTyped.conforms (h : WellTyped a v) : Conforms a v := by
  induction h with
  | null => exact .null
  | array multi _ ih => exact .array multi ih
  | @object a members single complex _ ih =>
      refine .object single complex fun s hs => ?_
      unfold Members.valueOf
      cases hv : members.named? s.name with
      | none => exact .null
      | some v =>
          obtain ⟨key, halike, hmem⟩ := Members.mem_of_named? hv
          exact ih (key, v) hmem s hs halike
  | simple single simple form => exact .simple single simple (hasForm_iff.mpr form)

/-- The check of types accepts every well-typed resource. -/
theorem Validation.checkTypes_of_typedBelow {schema : Schema} {r : Resource}
    (hsound : schema.root.Sound) (h : TypedBelow schema.root r.members) :
    checkTypes schema r = .ok () :=
  (checkTypes_eq_ok_iff hsound r).mpr fun _ hs => (h.valueOf hs).conforms

end Scim
