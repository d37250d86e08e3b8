import Mathlib.Data.List.Pairwise
import Scim.Schema.Core
import Scim.Schema.Record

/-!
# Sound schemas

What the check of declarations and the placing of attributes promise about every attribute of a
schema, at any depth.

`Attribute.Sound a` says that `a` is placed, that its sub-attributes have names that are not empty,
have no dot and differ from each other whatever their case, that it has sub-attributes exactly if
it is complex, and that every sub-attribute is sound.  A schema is *accepted* if it has been built from
its parts or read from a text, and the root of every accepted schema is sound
(`Schema.Accepted.sound`).
-/

namespace Scim

namespace Attribute

/-- Attributes whose names differ from each other whatever their case. -/
def DistinctNames (as : List Attribute) : Prop :=
  as.Pairwise fun a b => Text.alike a.name b.name = false

/-- A single-valued attribute is its own twin. -/
theorem singleValued_eq_self {a : Attribute} (h : a.multiValued = false) : a.singleValued = a := by
  obtain ⟨traits, subs⟩ := a
  obtain ⟨_, _, _, _, _, _, _, _, _⟩ := traits
  cases h
  rfl

/-- What a schema promises about an attribute and all those below it. -/
inductive Sound : Attribute → Prop where
  | intro {a : Attribute} (placed : a.placement.isSome = true)
      (names : ∀ s ∈ a.subAttributes, s.name ≠ "" ∧ '.' ∉ s.name.toList)
      (distinct : DistinctNames a.subAttributes)
      (complex : a.isComplex = true ↔ a.subAttributes ≠ [])
      (subs : ∀ s ∈ a.subAttributes, Sound s) : Sound a

namespace Sound

variable {a s s' : Attribute} {name : String}

theorem placed (h : a.Sound) : a.placement.isSome = true := by
  cases h with
  | intro placed _ _ _ _ => exact placed

theorem distinct (h : a.Sound) : DistinctNames a.subAttributes := by
  cases h with
  | intro _ _ distinct _ _ => exact distinct

theorem complex (h : a.Sound) : a.isComplex = true ↔ a.subAttributes ≠ [] := by
  cases h with
  | intro _ _ _ complex _ => exact complex

theorem names (h : a.Sound) (hs : s ∈ a.subAttributes) : s.name ≠ "" ∧ '.' ∉ s.name.toList := by
  cases h with
  | intro _ names _ _ _ => exact names s hs

theorem sub (h : a.Sound) (hs : s ∈ a.subAttributes) : s.Sound := by
  cases h with
  | intro _ _ _ _ subs => exact subs s hs

/-- The elements of a sound attribute are described by its single-valued twin. -/
theorem element_eq (h : a.Sound) : a.element = a.singleValued := by
  rw [element, h.placed, Bool.and_true]
  cases hm : a.multiValued with
  | true => rfl
  | false => exact (singleValued_eq_self hm).symm

theorem singleValued (h : a.Sound) : a.singleValued.Sound := by
  cases h with
  | intro placed names distinct complex subs => exact ⟨placed, names, distinct, complex, subs⟩

theorem element (h : a.Sound) : a.element.Sound := by
  rw [h.element_eq]
  exact h.singleValued

/-- Only one sub-attribute has a name in any case. -/
theorem eq_of_alike (h : a.Sound) (hs : s ∈ a.subAttributes) (hs' : s' ∈ a.subAttributes)
    (halike : Text.alike s.name s'.name = true) : s = s' := by
  have hsymm : Std.Symm fun x y : Attribute => Text.alike x.name y.name = false :=
    ⟨fun x y hxy => by rw [Text.alike_comm, hxy]⟩
  by_cases hne : s = s'
  · exact hne
  · have hdiffer : Text.alike s.name s'.name = false := h.distinct.forall hs hs' hne
    rw [halike] at hdiffer
    cases hdiffer

end Sound

/-- The sub-attribute of a name is one of them and has that name. -/
theorem mem_of_sub? {a s : Attribute} {name : String} (h : a.sub? name = some s) :
    s ∈ a.subAttributes ∧ Text.alike s.name name = true := by
  rw [sub?] at h
  exact ⟨List.mem_of_find?_eq_some h, by simpa using List.find?_some h⟩

/-- Names that are alike find the same sub-attribute. -/
theorem sub?_congr {a : Attribute} {name name' : String} (h : Text.alike name name' = true) :
    a.sub? name = a.sub? name' := by
  simp only [sub?, Text.alike, Text.alike_iff.mp h]

/-- The elements of an attribute have its sub-attributes. -/
theorem sub?_element (a : Attribute) (name : String) : a.element.sub? name = a.sub? name := by
  unfold element
  split <;> rfl

/-- Every sub-attribute is found by its name. -/
theorem Sound.sub?_of_mem {a s : Attribute} (h : a.Sound) (hs : s ∈ a.subAttributes) :
    a.sub? s.name = some s := by
  cases hfound : a.sub? s.name with
  | none =>
      have hnone := List.find?_eq_none.mp hfound s hs
      rw [Text.alike_refl] at hnone
      exact absurd rfl hnone
  | some s' =>
      obtain ⟨hs', halike⟩ := mem_of_sub? hfound
      rw [h.eq_of_alike hs' hs halike]

/-! ## Placing -/

@[simp] theorem toTraits_place (schemaId parent : String) (a : Attribute) :
    (place schemaId parent a).toTraits =
      { a.toTraits with placement := (place schemaId parent a).placement } := by
  obtain ⟨traits, subs⟩ := a
  rw [place]

theorem name_place (schemaId parent : String) (a : Attribute) :
    (place schemaId parent a).name = a.name := by
  rw [toTraits_place]

theorem placeAll_eq_map (schemaId parent : String) (as : List Attribute) :
    placeAll schemaId parent as = as.map (place schemaId parent) := by
  induction as with
  | nil => rfl
  | cons a rest ih => rw [placeAll, ih, List.map_cons]

theorem DistinctNames.place {as : List Attribute} (h : DistinctNames as)
    (schemaId parent : String) : DistinctNames (as.map (Attribute.place schemaId parent)) := by
  refine List.pairwise_map.mpr (h.imp fun {a b} hab => ?_)
  rw [name_place, name_place]
  exact hab

end Attribute

/-! ## The check of declarations -/

namespace Schema

open Attribute

/-- What the check of one attribute among its earlier siblings says. -/
theorem fault?_eq_none {earlier : List Attribute} {a : Attribute} (h : fault? earlier a = none) :
    (a.name ≠ "" ∧ '.' ∉ a.name.toList) ∧
      (∀ e ∈ earlier, Text.alike e.name a.name = false) ∧
      (a.isComplex = true ↔ a.subAttributes ≠ []) := by
  unfold fault? at h
  split at h
  · cases h
  rename_i hname
  split at h
  · cases h
  rename_i hdot
  split at h
  · cases h
  rename_i hearlier
  split at h
  · cases h
  rename_i hcomplex
  split at h
  · cases h
  rename_i hsimple
  refine ⟨⟨?_, ?_⟩, ?_, ?_⟩
  · rintro hempty
    simp [hempty] at hname
  · simpa using hdot
  · intro e he
    simpa using fun halike => hearlier (List.any_eq_true.mpr ⟨e, he, halike⟩)
  · cases hc : a.isComplex <;> cases hs : a.subAttributes <;> simp [hc, hs] at hcomplex hsimple ⊢

/-- The check of siblings checks the first one, what is below it, and the others. -/
theorem faultAmong?_cons {earlier rest : List Attribute} {a : Attribute}
    (h : faultAmong? earlier (a :: rest) = none) :
    fault? earlier a = none ∧ faultBelow? a = none ∧ faultAmong? (earlier ++ [a]) rest = none := by
  rw [faultAmong?] at h
  cases ha : fault? earlier a with
  | some fault =>
      rw [ha] at h
      cases h
  | none =>
      cases hbelow : faultBelow? a with
      | some fault =>
          rw [ha, hbelow] at h
          cases h
      | none =>
          rw [ha, hbelow] at h
          exact ⟨rfl, rfl, h⟩

/-- Siblings that pass the check have distinct names, also beside their earlier siblings. -/
theorem distinctNames_of_faultAmong? {earlier as : List Attribute}
    (h : faultAmong? earlier as = none) :
    DistinctNames as ∧ ∀ e ∈ earlier, ∀ a ∈ as, Text.alike e.name a.name = false := by
  induction as generalizing earlier with
  | nil => exact ⟨.nil, fun _ _ _ ha => absurd ha List.not_mem_nil⟩
  | cons a rest ih =>
      obtain ⟨ha, _, hrest⟩ := faultAmong?_cons h
      obtain ⟨_, hearlier, _⟩ := fault?_eq_none ha
      obtain ⟨hdistinct, hbeside⟩ := ih hrest
      refine ⟨.cons (fun b hb => hbeside a (by simp) b hb) hdistinct, ?_⟩
      intro e he b hb
      rcases List.mem_cons.mp hb with rfl | hb
      · exact hearlier e he
      · exact hbeside e (List.mem_append_left _ he) b hb

mutual

/-- What passes the check below it is sound once it is placed. -/
theorem sound_place (schemaId : String) : ∀ (parent : String) (a : Attribute),
    faultBelow? a = none → (a.isComplex = true ↔ a.subAttributes ≠ []) →
    (place schemaId parent a).Sound
  | parent, ⟨traits, subs⟩, h, hcomplex => by
      rw [faultBelow?] at h
      obtain ⟨hdistinct, _⟩ := distinctNames_of_faultAmong? h
      have hsubs := sound_placeAll schemaId (joinPath parent traits.name) [] subs h
      rw [place, placeAll_eq_map]
      refine ⟨rfl, ?_, hdistinct.place _ _, ?_, ?_⟩
      · intro s hs
        exact (hsubs s (placeAll_eq_map .. ▸ hs)).1
      · simpa [isComplex] using hcomplex
      · intro s hs
        exact (hsubs s (placeAll_eq_map .. ▸ hs)).2
termination_by structural _ a => a

/-- Siblings that pass the check have proper names and are sound once they are placed. -/
theorem sound_placeAll (schemaId : String) : ∀ (parent : String) (earlier as : List Attribute),
    faultAmong? earlier as = none → ∀ s ∈ placeAll schemaId parent as,
    (s.name ≠ "" ∧ '.' ∉ s.name.toList) ∧ s.Sound
  | _, _, [], _ => fun _ hs => absurd hs List.not_mem_nil
  | parent, earlier, a :: rest, h => by
      obtain ⟨ha, hbelow, hrest⟩ := faultAmong?_cons h
      obtain ⟨hname, _, hcomplex⟩ := fault?_eq_none ha
      intro s hs
      rw [placeAll] at hs
      rcases List.mem_cons.mp hs with rfl | hs
      · exact ⟨(name_place schemaId parent a).symm ▸ hname,
          sound_place schemaId parent a hbelow hcomplex⟩
      · exact sound_placeAll schemaId parent (earlier ++ [a]) rest hrest s hs
termination_by structural _ _ as => as

end

theorem withCommon_ne_nil (attributes : List Attribute) :
    withCommon attributes commonAttributes ≠ [] := by
  cases attributes with
  | nil => exact List.cons_ne_nil _ _
  | cons a rest => exact List.cons_ne_nil _ _

/-- What a schema that has been built is made of. -/
theorem of_build {id name : String} {description : Option String} {attributes : List Attribute}
    {schema : Schema} (h : build id name description attributes = .ok schema) :
    faultAmong? [] (withCommon attributes commonAttributes) = none ∧
      schema = assemble id name description (withCommon attributes commonAttributes) := by
  unfold build at h
  split at h
  · cases h
  · cases hfault : faultAmong? [] (withCommon attributes commonAttributes) with
    | some fault =>
        simp only [hfault] at h
        cases h
    | none =>
        simp only [hfault] at h
        cases h
        exact ⟨rfl, rfl⟩

/-- The root of a schema that has been built is sound, complex and single-valued. -/
theorem sound_of_build {id name : String} {description : Option String}
    {attributes : List Attribute} {schema : Schema}
    (h : build id name description attributes = .ok schema) :
    schema.root.Sound ∧ schema.root.isComplex = true ∧ schema.root.multiValued = false := by
  obtain ⟨hfault, rfl⟩ := of_build h
  obtain ⟨hdistinct, _⟩ := distinctNames_of_faultAmong? hfault
  have hsubs := sound_placeAll id "" [] _ hfault
  refine ⟨⟨rfl, fun s hs => (hsubs s hs).1, ?_, ?_, fun s hs => (hsubs s hs).2⟩, rfl, rfl⟩
  · show DistinctNames (placeAll ..)
    rw [placeAll_eq_map]
    exact hdistinct.place _ _
  · refine iff_of_true rfl ?_
    show placeAll .. ≠ []
    rw [placeAll_eq_map]
    simpa using withCommon_ne_nil attributes

/-- Declarations in order can be built. -/
theorem build_eq {id name : String} {description : Option String} {attributes : List Attribute}
    (hid : (Text.trim id.toList).isEmpty = false)
    (h : faultAmong? [] (withCommon attributes commonAttributes) = none) :
    build id name description attributes =
      .ok (assemble id name description (withCommon attributes commonAttributes)) := by
  rw [build, hid, if_neg Bool.false_ne_true]
  dsimp only
  rw [h]

/-- The schema of users can be built. -/
theorem build_user : build userId "User" (some "User Account") userAttributes = .ok user :=
  build_eq (by decide +kernel) (by decide +kernel)

/-- The schema of groups can be built. -/
theorem build_group : build groupId "Group" (some "Group") groupAttributes = .ok group :=
  build_eq (by decide +kernel) (by decide +kernel)

/-! ## Accepted schemas -/

/-- A schema that has been built from its parts or read from a text. -/
inductive Accepted (schema : Schema) : Prop where
  | built {id name : String} {description : Option String} {attributes : List Attribute}
      (h : build id name description attributes = .ok schema)
  | read {text : String} (h : ofText text = .ok schema)

/-- A schema that is read from a text is built from the parts in it. -/
theorem exists_build_of_ofText {text : String} {schema : Schema} (h : ofText text = .ok schema) :
    ∃ id name description attributes, build id name description attributes = .ok schema := by
  rw [ofText] at h
  split at h
  case h_2 => cases h
  case h_1 v _ =>
      rw [ofWritten] at h
      split at h
      case h_2 => cases h
      case h_1 id name description attributes _ => exact ⟨id, name, description, attributes, h⟩

namespace Accepted

variable {schema : Schema}

theorem exists_build (h : schema.Accepted) :
    ∃ id name description attributes, build id name description attributes = .ok schema := by
  cases h with
  | built h => exact ⟨_, _, _, _, h⟩
  | read h => exact exists_build_of_ofText h

theorem sound (h : schema.Accepted) : schema.root.Sound := by
  obtain ⟨_, _, _, _, hbuild⟩ := h.exists_build
  exact (sound_of_build hbuild).1

/-- What an accepted schema says of its root. -/
theorem root (h : schema.Accepted) : schema.root.mutability = .readWrite ∧
    schema.root.isComplex = true ∧ schema.root.multiValued = false := by
  obtain ⟨_, _, _, _, hbuild⟩ := h.exists_build
  obtain ⟨_, rfl⟩ := of_build hbuild
  exact ⟨rfl, rfl, rfl⟩

end Accepted

end Schema

end Scim
