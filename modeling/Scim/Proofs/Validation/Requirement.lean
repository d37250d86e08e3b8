import Scim.Proofs.Validation.Shedding
import Scim.Proofs.Walk.Visits
import Scim.Validation.Required
import Scim.Validation.Types

/-!
# What the check of required attributes demands

A required attribute that a client can set has to be *given* wherever an object around it is there
(`Given`).  Its value has to be assigned, and if that is an array then so has each of its elements,
since the elements of an array are described by a twin that is required too.  So an array of which
one element is assigned is not enough (`checkRequired_group_blank`).

The objects are those to which `Reaches` comes: the resource, the objects of single-valued complex
attributes and those in the arrays of multi-valued ones, none of them below a read-only attribute.
The walk stands at their sub-attributes and at the elements of arrays there (`stands_of_makes`), and
where it ends well it has come to all of them (`comesInto_of_reaches`).
-/

namespace Scim.Validation

open Walk (Makes)

/-- There is something in the value of a required attribute, and in each element of its array. -/
structure Given (a : Attribute) (v : Json) : Prop where
  assigned : a.isAssigned v = true
  elements : ∀ items, a.multiValued = true → v = .array items →
    ∀ w ∈ items, a.singleValued.isAssigned w = true

variable {schema : Schema} {r : Resource} {a b c s : Attribute} {members : Members}
  {u v w : Json} {visit : Walk.Visit Json}

theorem Reaches.trans (h : Reaches a u b v) (h' : Reaches b v c w) : Reaches a u c w := by
  induction h with
  | self => exact h'
  | member ha hs _ ih => exact .member ha hs (ih h')
  | item hset hmulti hv _ ih => exact .item hset hmulti hv (ih h')

/-! ## Visits -/

/-- The walk goes on below what is not read-only, unless something is missing. -/
theorem visitRequired_goOn (h : visitRequired visit = .ok .goOn) :
    visit.descriptor.mutability ≠ .readOnly := by
  intro hro
  simp [visitRequired, hro] at h

/-- The visit of what is not read-only ends well if it is assigned or not required. -/
theorem visitRequired_settable (hset : visit.descriptor.mutability ≠ .readOnly)
    (h : ∃ flow, visitRequired visit = .ok flow) :
    visitRequired visit = .ok .goOn ∧
      (visit.descriptor.required = true →
        visit.descriptor.isAssigned visit.content = true) := by
  obtain ⟨flow, hflow⟩ := h
  simp only [visitRequired, hset, if_false] at hflow ⊢
  split at hflow
  case isTrue => cases hflow
  case isFalse hgiven =>
      rw [if_neg hgiven]
      refine ⟨rfl, fun hrequired => ?_⟩
      simpa [hrequired] using hgiven

/-- A visit fails at a required attribute that is not read-only and not assigned. -/
theorem visitRequired_error {e : Error} (h : visitRequired visit = .error e) :
    visit.descriptor.mutability ≠ .readOnly ∧ visit.descriptor.required = true ∧
      visit.descriptor.isAssigned visit.content = false ∧ e = .required visit.path := by
  unfold visitRequired at h
  dsimp only at h
  split at h
  case isTrue => cases h
  case isFalse hset =>
      split at h
      case isTrue hmissing =>
          cases h
          simp only [Bool.and_eq_true, Bool.not_eq_true'] at hmissing
          exact ⟨hset, hmissing.1, hmissing.2, rfl⟩
      case isFalse => cases h

/-! ## Where the walk comes to -/

/-- Where a visit stands: at an attribute of an object that is there, or at an element of the array
that such an attribute holds. -/
def Stands (schema : Schema) (r : Resource) (visit : Walk.Visit Json) : Prop :=
  ∃ (b : Attribute) (members : Members) (s : Attribute),
    Reaches schema.root r.toJson b (.object members) ∧ Opens b ∧ s ∈ b.subAttributes ∧
    (visit.descriptor = s ∧ visit.content = members.valueOf s.name ∨
      s.mutability ≠ .readOnly ∧ s.multiValued = true ∧ visit.descriptor = s.singleValued ∧
        ∃ items, members.valueOf s.name = .array items ∧ visit.content ∈ items)

theorem Stands.reaches (h : Stands schema r visit) :
    Reaches schema.root r.toJson visit.descriptor visit.content := by
  obtain ⟨b, members, s, hreach, hb, hs, ⟨hdescriptor, hcontent⟩ |
    ⟨hset, hmulti, hdescriptor, items, hitems, hmem⟩⟩ := h
  · rw [hdescriptor, hcontent]
    exact hreach.trans (.member hb hs .self)
  · rw [hdescriptor]
    refine hreach.trans (.member hb hs ?_)
    rw [hitems]
    exact .item hset hmulti hmem .self

/-- Every visit stands at an attribute or at an element. -/
theorem stands_of_makes (h : schema.Accepted)
    (hmakes : Makes visitRequired schema r.members visit) : Stands schema r visit := by
  refine (hmakes.induction
    (motive := fun visit => visit.descriptor.Sound ∧ Stands schema r visit) ?start ?next).2
  case start =>
      intro a ha
      exact ⟨h.sound.sub ha, schema.root, r.members, a, .self, opens_root h, ha, .inl ⟨rfl, rfl⟩⟩
  case next =>
      rintro visit next ⟨hsound, hstands⟩ hgo hnext
      have hset := visitRequired_goOn hgo
      have hreach := hstands.reaches
      rcases Walk.mem_followers_iff.mp hnext with
        ⟨items, i, v, hcontent, hmulti, _, hitem, rfl⟩ |
        ⟨members, s, hs, hcontent, hcomplex, hsingle, rfl⟩
      · refine ⟨hsound.element, ?_⟩
        obtain ⟨b, members, s, hparent, hb, hs, ⟨hdescriptor, hvalue⟩ | ⟨_, _, htwin, _⟩⟩ := hstands
        · refine ⟨b, members, s, hparent, hb, hs, .inr ⟨hdescriptor ▸ hset, hdescriptor ▸ hmulti,
            ?_, items, hvalue ▸ hcontent, List.mem_of_getElem? hitem⟩⟩
          rw [← hdescriptor]
          exact hsound.element_eq
        · rw [htwin] at hmulti
          cases hmulti
      · rw [hcontent] at hreach
        exact ⟨hsound.sub hs, visit.descriptor, members, s, hreach, ⟨hset, hsingle, hcomplex⟩, hs,
          .inl ⟨rfl, rfl⟩⟩

/-- The walk makes a visit of the value. -/
def ComesTo (schema : Schema) (r : Resource) (a : Attribute) (v : Json) : Prop :=
  ∃ visit, Makes visitRequired schema r.members visit ∧ visit.descriptor = a ∧ visit.content = v

/-- The walk comes to what is in a value: to the values of the sub-attributes of an object, and to
the elements of an array. -/
structure ComesInto (schema : Schema) (r : Resource) (a : Attribute) (v : Json) : Prop where
  members : ∀ members : Members, v = .object members → Opens a → ∀ s ∈ a.subAttributes,
    ComesTo schema r s (members.valueOf s.name)
  elements : ∀ items, v = .array items → a.mutability ≠ .readOnly → a.multiValued = true →
    ∀ w ∈ items, ComesTo schema r a.singleValued w

/-- A walk that ends well comes into every value to which it comes. -/
theorem comesInto_of_comesTo (h : schema.Accepted) (hok : checkRequired schema r = .ok ())
    (hcomes : ComesTo schema r a v) : ComesInto schema r a v := by
  obtain ⟨visit, hmakes, rfl, rfl⟩ := hcomes
  have hgo : visit.descriptor.mutability ≠ .readOnly → visitRequired visit = .ok .goOn :=
    fun hset => (visitRequired_settable hset (Walk.through_eq_ok_iff.mp hok visit hmakes)).1
  have hsound := (Walk.placedAt_of_makes h hmakes).1
  have helement := Walk.element_of_makes h hmakes
  obtain ⟨start, hstart, hleads⟩ := hmakes
  constructor
  · intro members hcontent hopens s hs
    refine ⟨⟨s, members.valueOf s.name, visit.below, none⟩,
      ⟨start, hstart, hleads.snoc (hgo hopens.settable) ?_⟩, rfl, rfl⟩
    exact Walk.mem_followers_iff.mpr
      (.inr ⟨members, s, hs, hcontent, hopens.complex, hopens.single, rfl⟩)
  · intro items hcontent hset hmulti w hw
    obtain ⟨i, hi⟩ := List.mem_iff_getElem?.mp hw
    refine ⟨⟨visit.descriptor.element, w, visit.below, some i⟩,
      ⟨start, hstart, hleads.snoc (hgo hset) ?_⟩, hsound.element_eq, rfl⟩
    exact Walk.mem_followers_iff.mpr
      (.inl ⟨items, i, w, hcontent, hmulti, helement hmulti, hi, rfl⟩)

/-- A walk that ends well comes into every value that can be reached. -/
theorem comesInto_of_reaches (h : schema.Accepted) (hok : checkRequired schema r = .ok ())
    (hinto : ComesInto schema r a v) (hreach : Reaches a v b w) : ComesInto schema r b w := by
  induction hreach with
  | self => exact hinto
  | member ha hs _ ih => exact ih (comesInto_of_comesTo h hok (hinto.members _ rfl ha _ hs))
  | item hset hmulti hv _ ih =>
      exact ih (comesInto_of_comesTo h hok (hinto.elements _ rfl hset hmulti _ hv))

theorem comesInto_root : ComesInto schema r schema.root r.toJson := by
  constructor
  · rintro members hmembers _ s hs
    cases hmembers
    exact ⟨⟨s, r.members.valueOf s.name, [], none⟩,
      ⟨_, List.mem_map_of_mem hs, .self⟩, rfl, rfl⟩
  · intro items hitems
    cases hitems

/-! ## What is demanded -/

/-- If the walk ends well then it has found assigned what it has come to. -/
theorem isAssigned_of_comesTo (hok : checkRequired schema r = .ok ())
    (hcomes : ComesTo schema r a v) (hset : a.mutability ≠ .readOnly)
    (hrequired : a.required = true) : a.isAssigned v = true := by
  obtain ⟨visit, hmakes, rfl, rfl⟩ := hcomes
  exact (visitRequired_settable hset (Walk.through_eq_ok_iff.mp hok visit hmakes)).2 hrequired

/-- If the walk ends well then the required attributes of every object that is there are given. -/
theorem given_of_checkRequired (h : schema.Accepted) (hok : checkRequired schema r = .ok ())
    (hreach : Reaches schema.root r.toJson b (.object members)) (hb : Opens b)
    (hs : s ∈ b.subAttributes) (hset : s.mutability ≠ .readOnly) (hrequired : s.required = true) :
    Given s (members.valueOf s.name) := by
  have hcomes := (comesInto_of_reaches h hok comesInto_root hreach).members members rfl hb s hs
  refine ⟨isAssigned_of_comesTo hok hcomes hset hrequired, ?_⟩
  intro items hmulti hitems w hw
  have helement := (comesInto_of_comesTo h hok hcomes).elements items hitems hset hmulti w hw
  exact isAssigned_of_comesTo hok helement hset hrequired

/-- If the walk fails then it names a required attribute of an object that is there and that is not
given. -/
theorem exists_of_checkRequired (h : schema.Accepted) {e : Error}
    (herror : checkRequired schema r = .error e) :
    ∃ (b : Attribute) (members : Members) (s : Attribute),
      Reaches schema.root r.toJson b (.object members) ∧ Opens b ∧ s ∈ b.subAttributes ∧
      s.mutability ≠ .readOnly ∧ s.required = true ∧ ¬ Given s (members.valueOf s.name) ∧
      e = .required s.path := by
  obtain ⟨visit, hmakes, hfails⟩ := Walk.exists_of_through_eq_error herror
  obtain ⟨hset, hrequired, hmissing, rfl⟩ := visitRequired_error hfails
  rw [Walk.path_of_makes h hmakes]
  obtain ⟨b, members, s, hreach, hb, hs, ⟨hdescriptor, hcontent⟩ |
    ⟨_, hmulti, hdescriptor, items, hitems, hmem⟩⟩ := stands_of_makes h hmakes
  · rw [hdescriptor, hcontent] at hmissing
    rw [hdescriptor] at hset hrequired ⊢
    refine ⟨b, members, s, hreach, hb, hs, hset, hrequired, fun hgiven => ?_, rfl⟩
    simp [hgiven.assigned] at hmissing
  · rw [hdescriptor] at hset hrequired hmissing ⊢
    refine ⟨b, members, s, hreach, hb, hs, hset, hrequired, fun hgiven => ?_, rfl⟩
    simp [hgiven.elements items hmulti hitems _ hmem] at hmissing

/-- Under every accepted schema, the check of required attributes accepts exactly the resources in
which every required attribute that a client can set is given, wherever the object around it is
there.  Else it reports the path of an attribute that is not. -/
theorem checkRequired_exact {schema : Schema} (h : schema.Accepted) (r : Resource) :
    (checkRequired schema r = .ok () ↔
      ∀ (b : Attribute) (members : Members), Reaches schema.root r.toJson b (.object members) →
        Opens b → ∀ s ∈ b.subAttributes, s.mutability ≠ .readOnly → s.required = true →
          Given s (members.valueOf s.name)) ∧
    ∀ e, checkRequired schema r = .error e →
      ∃ (b : Attribute) (members : Members) (s : Attribute),
        Reaches schema.root r.toJson b (.object members) ∧ Opens b ∧ s ∈ b.subAttributes ∧
        s.mutability ≠ .readOnly ∧ s.required = true ∧ ¬ Given s (members.valueOf s.name) ∧
        e = .required s.path := by
  refine ⟨⟨?_, fun hgiven => ?_⟩, fun e => exists_of_checkRequired h⟩
  · intro hok b members hreach hb s hs hset hrequired
    exact given_of_checkRequired h hok hreach hb hs hset hrequired
  · cases hresult : checkRequired schema r with
    | ok => rfl
    | error e =>
        obtain ⟨b, members, s, hreach, hb, hs, hset, hrequired, hmissing, _⟩ :=
          exists_of_checkRequired h hresult
        exact absurd (hgiven b members hreach hb s hs hset hrequired) hmissing

/-- A group without a name is reported by that attribute. -/
theorem checkRequired_exact_group :
    let r : Resource := ⟨[("schemas", .array [.string Schema.groupId])]⟩
    Schema.group.Accepted ∧ checkRequired Schema.group r = .error (.required "displayName") ∧
      ∃ (b : Attribute) (members : Members) (s : Attribute),
        Reaches Schema.group.root r.toJson b (.object members) ∧ Opens b ∧ s ∈ b.subAttributes ∧
        s.mutability ≠ .readOnly ∧ s.required = true ∧ ¬ Given s (members.valueOf s.name) ∧
        Error.required "displayName" = .required s.path := by
  intro r
  have hgroup : Schema.group.Accepted := .built Schema.build_group
  have herror : checkRequired Schema.group r = .error (.required "displayName") := rfl
  exact ⟨hgroup, herror, (checkRequired_exact hgroup r).2 _ herror⟩

/-- What holds no object, and no array in an array, has no object below it. -/
theorem not_reaches_object (hobject : v.object? = none)
    (hitems : ∀ items, v = .array items → ∀ w ∈ items, w.object? = none ∧ w.array? = none) :
    ¬ Reaches a v b (.object members) := by
  intro h
  cases h with
  | self => cases hobject
  | member => cases hobject
  | item _ _ hw h =>
      obtain ⟨hobject, harray⟩ := hitems _ rfl _ hw
      cases h with
      | self => cases hobject
      | member => cases hobject
      | item => cases harray

/-- A group names two schemas, one of them blank.  Its types are right, and the value of every
required attribute is assigned, wherever the object around it is there.  It is reported all the
same. -/
theorem checkRequired_group_blank :
    let r : Resource := ⟨[("displayName", .string "Ops"),
      ("schemas", .array [.string Schema.groupId, .string ""])]⟩
    checkTypes Schema.group r = .ok () ∧
      (∀ (b : Attribute) (members : Members),
        Reaches Schema.group.root r.toJson b (.object members) → Opens b →
        ∀ s ∈ b.subAttributes, s.mutability ≠ .readOnly → s.required = true →
          s.isAssigned (members.valueOf s.name) = true) ∧
      checkRequired Schema.group r = .error (.required "schemas") := by
  intro r
  have hvalues : ∀ name, r.members.valueOf name = .null ∨ r.members.valueOf name = .string "Ops" ∨
      r.members.valueOf name = .array [.string Schema.groupId, .string ""] := by
    intro name
    cases hname : r.members.named? name with
    | none => exact .inl (by rw [Members.valueOf, hname]; rfl)
    | some v =>
        obtain ⟨key, _, hmem⟩ := Members.mem_of_named? hname
        rw [Members.valueOf_of_named? hname]
        simp only [r, List.mem_cons, Prod.mk.injEq, List.not_mem_nil, or_false] at hmem
        exact .inr (hmem.imp And.right And.right)
  refine ⟨rfl, ?_, rfl⟩
  intro b members hreach hb s hs
  cases hreach with
  | self =>
      revert s
      decide +kernel
  | member _ _ h =>
      refine absurd h (not_reaches_object ?_ ?_)
      · rcases hvalues _ with h | h | h <;> rw [h] <;> rfl
      · intro items hitems w hw
        rcases hvalues _ with h | h | h <;> rw [h] at hitems <;> cases hitems
        simp only [List.mem_cons, List.not_mem_nil, or_false] at hw
        rcases hw with rfl | rfl <;> exact ⟨rfl, rfl⟩

end Scim.Validation
