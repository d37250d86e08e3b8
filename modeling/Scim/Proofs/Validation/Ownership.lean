import Scim.Proofs.Schema.Index
import Scim.Proofs.Validation.Retention

/-!
# What the client owns

The enforcement of mutability writes read-only values and takes away members that are `null`.
Everything else belongs to the client.  `owned` erases from the members of an object what does not:
the members whose keys name a read-only attribute, and the described members that are `null`.  It
erases below objects of single-valued complex attributes and in the elements of multi-valued ones,
and keeps what the schema does not describe and the place of every element.

The enforcement never touches what the client owns, whether it ends well or not
(`enforceMutability_keeps_owned`).  A visit that is not of a read-only attribute hands its value on,
so `SameOwned` is handed up from below: an object keeps what its members keep, an element keeps it
through all the stored elements that it meets, and an array keeps what its elements keep up to the
one that fails.
-/

namespace Scim.Validation

open Attribute (DistinctNames)
open Walk.Editor (store)

/-! ## Erasing what the server owns -/

/-- Erases in the object of a single-valued complex attribute, as `erase` does among its members. -/
def ownedSingle (a : Attribute) (erase : Members → Members) : Json → Json
  | .object members =>
      if a.isComplex && !a.multiValued then .object (erase members) else .object members
  | v => v

/-- Erases in the value of an attribute, as `erase` does among the members of objects. -/
def ownedWhole (a : Attribute) (erase : Members → Members) : Json → Json
  | .array items =>
      if a.multiValued then .array (items.map (ownedSingle a.singleValued erase)) else .array items
  | v => ownedSingle a erase v

mutual

/-- Erases in a member of an attribute, or the member itself. -/
def ownedUnder (m : String × Json) : Attribute → Option (String × Json)
  | ⟨traits, subs⟩ =>
      if traits.mutability = .readOnly ∨ m.2.isNull then none
      else some (m.1, ownedWhole ⟨traits, subs⟩
        (fun members => members.filterMap fun m => ownedAmong m subs) m.2)
termination_by structural a => a

/-- Erases in a member of an object, if one of the attributes has its name. -/
def ownedAmong (m : String × Json) : List Attribute → Option (String × Json)
  | [] => some m
  | a :: rest => if Text.alike m.1 a.name then ownedUnder m a else ownedAmong m rest
termination_by structural as => as

end

/-- The members of an object without what the server owns. -/
def owned (as : List Attribute) (members : Members) : Members :=
  members.filterMap fun m => ownedAmong m as

variable {a : Attribute} {as : List Attribute} {erase : Members → Members}
  {members kept : Members} {items : List Json} {m : String × Json} {key : String} {v w : Json}

theorem ownedUnder_eq : ownedUnder m a =
    if a.mutability = .readOnly ∨ m.2.isNull then none
    else some (m.1, ownedWhole a (owned a.subAttributes) m.2) := by
  obtain ⟨traits, subs⟩ := a
  rw [ownedUnder]
  rfl

theorem ownedUnder_null : ownedUnder (key, .null) a = none := by
  rw [ownedUnder_eq, if_pos (.inr rfl)]

theorem isNull_ownedWhole (a : Attribute) (erase : Members → Members) (v : Json) :
    (ownedWhole a erase v).isNull = v.isNull := by
  cases v with
  | array items => rw [ownedWhole]; split <;> rfl
  | object members => rw [ownedWhole, ownedSingle]; split <;> rfl; exact nofun
  | _ => rfl

/-- Values that the client owns alike make members that it owns alike. -/
theorem ownedUnder_congr (h : ownedWhole a (owned a.subAttributes) w =
    ownedWhole a (owned a.subAttributes) v) : ownedUnder (key, w) a = ownedUnder (key, v) a := by
  have hnull : w.isNull = v.isNull := by
    rw [← isNull_ownedWhole a (owned a.subAttributes), h, isNull_ownedWhole]
  rw [ownedUnder_eq, ownedUnder_eq, hnull, h]

theorem key_of_ownedUnder {n : String × Json} (h : ownedUnder m a = some n) : n.1 = m.1 := by
  rw [ownedUnder_eq] at h
  split at h
  · cases h
  · cases h
    rfl

theorem key_of_ownedAmong {n : String × Json} (h : ownedAmong m as = some n) : n.1 = m.1 := by
  induction as with
  | nil =>
      cases h
      rfl
  | cons a rest ih =>
      rw [ownedAmong] at h
      split at h
      · exact key_of_ownedUnder h
      · exact ih h

/-- A member that no attribute has the name of is owned as it is. -/
theorem ownedAmong_of_unnamed (h : ∀ a ∈ as, Text.alike m.1 a.name = false) :
    ownedAmong m as = some m := by
  induction as with
  | nil => rfl
  | cons a rest ih =>
      obtain ⟨ha, hrest⟩ := List.forall_mem_cons.mp h
      rw [ownedAmong, ha, if_neg Bool.false_ne_true, ih hrest]

theorem ownedAmong_of_alike (hdistinct : DistinctNames as) (ha : a ∈ as)
    (h : Text.alike m.1 a.name = true) : ownedAmong m as = ownedUnder m a := by
  induction as with
  | nil => exact absurd ha List.not_mem_nil
  | cons b rest ih =>
      obtain ⟨hbeside, hrest⟩ := List.pairwise_cons.mp hdistinct
      rw [ownedAmong]
      rcases List.mem_cons.mp ha with rfl | ha
      · rw [if_pos h]
      · have hne : Text.alike m.1 b.name = false :=
          Text.not_alike_of_alike h ((Text.alike_comm ..).trans (hbeside a ha))
        rw [hne, if_neg Bool.false_ne_true, ih hrest ha]

/-- What is owned of a member stands at its key. -/
theorem get?_owned (hordered : members.InOrder) :
    (owned as members).get? key =
      (members.get? key).bind fun u => (ownedAmong (key, u) as).map (·.2) :=
  Members.get?_filterMap hordered fun _ _ => key_of_ownedAmong

/-! ## Visits -/

/-- The value `w` is in order, and what `erase` leaves of it is what it leaves of `v`. -/
structure SameOwned (erase : Json → Json) (v w : Json) : Prop where
  ordered : w.Ordered
  same : erase w = erase v

/-- Going on below objects keeps what the client owns. -/
def SameOwnedBelow (inner : Walk.Editor.Inner Id Error) (erase : Members → Members) : Prop :=
  ∀ (ancestors : List (Walk.Frame (Option Json))) (reference : Option Members) (members : Members),
    (∀ others ∈ reference, (Json.object others).Ordered) → (Json.object members).Ordered →
    let kept := (inner ancestors reference members).run.value
    (Json.object kept).Ordered ∧ erase kept = erase members

variable {inner : Walk.Editor.Inner Id Error} {visit whole : Walk.Visit (Option Json)}
  {stored : Option Json} {ancestors : List (Walk.Frame (Option Json))}
  {reference : Option Members} {position : Nat}

theorem SameOwned.refl {change : Json → Json} (h : v.Ordered) : SameOwned change v v := ⟨h, rfl⟩

theorem SameOwned.trans {u : Json} {change : Json → Json} (h : SameOwned change u v)
    (h' : SameOwned change v w) : SameOwned change u w := ⟨h'.ordered, h'.same.trans h.same⟩

/-- A stored version that is an object is an object in order. -/
theorem ordered_others (h : ∀ u ∈ stored, u.Ordered) :
    ∀ others ∈ stored.bind Json.object?, (Json.object others).Ordered := by
  intro others hothers
  obtain ⟨u, hu, hobject⟩ := Option.bind_eq_some_iff.mp hothers
  cases u with
  | object members =>
      cases hobject
      exact h _ hu
  | _ => cases hobject

/-- The stored elements that an element meets are in order. -/
theorem ordered_partners (h : ∀ u ∈ stored, u.Ordered) :
    ∀ p ∈ mutabilityEditor.partners a stored v, p.Ordered := by
  intro p hp
  unfold Walk.Editor.partners at hp
  split at hp
  · have hmem := List.mem_of_mem_filter hp
    cases stored with
    | none => cases hmem
    | some u =>
        cases u with
        | array items => exact Json.ordered_item (h _ rfl) hmem
        | _ => cases hmem
  · cases hp

/-- Going on below an object keeps what the client owns of it. -/
theorem belowObject_keeps (hbelow : SameOwnedBelow inner erase)
    (hstored : ∀ u ∈ visit.content, u.Ordered) (hordered : (Json.object members).Ordered) :
    ∃ kept : Members,
      (if visit.descriptor.isComplex && !visit.descriptor.multiValued then
        Walk.Editor.belowObject inner visit members
      else pure ⟨.object members, .ok ()⟩ : Id (Walk.Edited Error Json)).run.value = .object kept ∧
      SameOwned (ownedSingle visit.descriptor erase) (.object members) (.object kept) := by
  split
  case isTrue hopens =>
      obtain ⟨hkept, hsame⟩ := hbelow visit.below _ members (ordered_others hstored) hordered
      refine ⟨_, rfl, hkept, ?_⟩
      rw [ownedSingle, ownedSingle, if_pos hopens, if_pos hopens]
      exact congrArg Json.object hsame
  case isFalse => exact ⟨members, rfl, .refl hordered⟩

/-- The visit of an element keeps what the client owns of it. -/
theorem visitElement_keeps (visit : Walk.Visit (Option Json)) (hbelow : SameOwnedBelow inner erase)
    (hset : visit.descriptor.mutability ≠ .readOnly) (hstored : ∀ u ∈ visit.content, u.Ordered)
    (hordered : v.Ordered) :
    SameOwned (ownedSingle visit.descriptor erase) v
      (mutabilityEditor.visitElement inner visit v).run.value := by
  rw [Walk.Editor.visitElement]
  rcases visitMutability_settable visit hset v with hvisit | ⟨cause, hvisit⟩
  · rw [hvisit, pure_bind]
    cases v with
    | object members =>
        obtain ⟨kept, hkept, hkeeps⟩ := belowObject_keeps hbelow hstored hordered
        exact hkept ▸ hkeeps
    | _ => exact .refl hordered
  · rw [hvisit]
    exact .refl hordered

/-- An element keeps what the client owns of it through all the elements that it meets. -/
theorem visitBeside_keeps (visit : Walk.Visit (Option Json)) {found : List Json}
    (hbelow : SameOwnedBelow inner erase) (hset : visit.descriptor.mutability ≠ .readOnly)
    (hfound : ∀ p ∈ found, p.Ordered) (hordered : v.Ordered) :
    SameOwned (ownedSingle visit.descriptor erase) v
      (mutabilityEditor.visitBeside inner visit v found).run.value := by
  induction found generalizing v with
  | nil => exact .refl hordered
  | cons p rest ih =>
      obtain ⟨hp, hrest⟩ := List.forall_mem_cons.mp hfound
      have hfirst := visitElement_keeps { visit with content := some p } hbelow hset
        (fun u hu => Option.some.inj hu ▸ hp) hordered
      rw [Walk.Editor.visitBeside]
      rcases hedited : mutabilityEditor.visitElement inner { visit with content := some p } v with
        ⟨u, _ | _⟩
      · rw [hedited] at hfirst
        exact hfirst
      · rw [hedited] at hfirst
        exact hfirst.trans (ih hrest hfirst.ordered)

theorem visitPaired_keeps (hbelow : SameOwnedBelow inner erase)
    (hset : whole.descriptor.element.mutability ≠ .readOnly)
    (hstored : ∀ u ∈ whole.content, u.Ordered) (hordered : v.Ordered) :
    SameOwned (ownedSingle whole.descriptor.element erase) v
      (mutabilityEditor.visitPaired inner whole position v).value := by
  have hfound : ∀ p ∈ mutabilityEditor.partners whole.descriptor whole.content v, p.Ordered :=
    ordered_partners hstored
  unfold Walk.Editor.visitPaired
  split
  case h_1 => exact visitElement_keeps ⟨_, none, _, _⟩ hbelow hset (by simp) hordered
  case h_2 p found hpartners =>
      rw [hpartners] at hfound
      exact visitBeside_keeps ⟨_, none, _, _⟩ hbelow hset hfound hordered

/-- An array keeps what the client owns of its elements, and their places. -/
theorem visitElements_keeps (whole : Walk.Visit (Option Json)) (position : Nat)
    (hbelow : SameOwnedBelow inner erase)
    (hset : whole.descriptor.element.mutability ≠ .readOnly)
    (hstored : ∀ u ∈ whole.content, u.Ordered) (hordered : ∀ v ∈ items, v.Ordered) :
    let kept := (mutabilityEditor.visitElements inner whole position items).run.value
    (∀ v ∈ kept, v.Ordered) ∧ kept.map (ownedSingle whole.descriptor.element erase) =
      items.map (ownedSingle whole.descriptor.element erase) := by
  induction items generalizing position with
  | nil => exact ⟨nofun, rfl⟩
  | cons v rest ih =>
      obtain ⟨hv, hrest⟩ := List.forall_mem_cons.mp hordered
      have hfirst : SameOwned _ v (mutabilityEditor.visitPaired inner whole position v).value :=
        visitPaired_keeps hbelow hset hstored hv
      rw [Walk.Editor.visitElements_cons]
      rcases hpaired : mutabilityEditor.visitPaired inner whole position v with ⟨u, cause | _⟩
      · rw [hpaired] at hfirst
        exact ⟨List.forall_mem_cons.mpr ⟨hfirst.ordered, hrest⟩,
          congrArg (· :: rest.map _) hfirst.same⟩
      · rw [hpaired] at hfirst
        obtain ⟨hothers, hsame⟩ := ih (position + 1) hrest
        exact ⟨List.forall_mem_cons.mpr ⟨hfirst.ordered, hothers⟩,
          congrArg₂ List.cons hfirst.same hsame⟩

/-- The visit of a value that it does not replace keeps what the client owns of it. -/
theorem visitWhole_keeps (visit : Walk.Visit (Option Json)) (hsound : visit.descriptor.Sound)
    (hbelow : SameOwnedBelow inner erase) (hset : visit.descriptor.mutability ≠ .readOnly)
    (hstored : ∀ u ∈ visit.content, u.Ordered) (hordered : v.Ordered) :
    SameOwned (ownedWhole visit.descriptor erase) v
      (mutabilityEditor.visitWhole inner visit v).run.value := by
  rw [Walk.Editor.visitWhole]
  rcases visitMutability_settable visit hset v with hvisit | ⟨cause, hvisit⟩
  · rw [hvisit, pure_bind]
    cases v with
    | object members =>
        obtain ⟨kept, hkept, hkeeps⟩ := belowObject_keeps hbelow hstored hordered
        exact hkept ▸ ⟨hkeeps.ordered, hkeeps.same⟩
    | array items =>
        dsimp only
        split
        case isTrue hmulti =>
            have helement : visit.descriptor.element = visit.descriptor.singleValued :=
              hsound.element_eq
            obtain ⟨hkept, hsame⟩ := visitElements_keeps visit 0 hbelow
              (by rwa [helement]) hstored fun u hu => Json.ordered_item hordered hu
            rw [helement] at hsame
            refine ⟨.array hkept, ?_⟩
            rw [ownedWhole, if_pos hmulti, ← hsame]
            exact if_pos hmulti
        case isFalse => exact .refl hordered
    | _ => exact .refl hordered
  · rw [hvisit]
    exact .refl hordered

/-! ## Attributes -/

/-- Putting back a value keeps what the client owns of an object if the visit has kept what it owns
of the value. -/
theorem owned_store {edited : Walk.Edited Error Json} (hdistinct : DistinctNames as) (ha : a ∈ as)
    (hordered : members.InOrder)
    (hsame : ∀ key, ownedUnder (key, edited.value) a = ownedUnder (key, members.valueOf a.name) a) :
    owned as (store members a.name edited).value = owned as members := by
  have hunder : ∀ key u, Text.alike key a.name = true → ownedAmong (key, u) as =
      ownedUnder (key, u) a := fun key u halike => ownedAmong_of_alike hdistinct ha halike
  refine Walk.Editor.filterMap_store hordered (fun _ _ _ => rfl) (fun hkey _ => ?new)
    (fun key hkey hnull => ?drop) (fun key hkey _ => ?put)
  case new =>
      rw [hunder _ _ (Text.alike_refl _), hsame, Members.valueOf_eq_null hkey, ownedUnder_null]
  case drop =>
      rw [hunder _ _ (Members.alike_of_key? hkey), ← hsame, eq_null_of_isNull hnull,
        ownedUnder_null]
  case put =>
      have halike : Text.alike key a.name = true := Members.alike_of_key? hkey
      rw [hunder _ _ halike, hunder _ _ halike, hsame]

/-- The walk through attributes keeps what the client owns if each of the visits does. -/
theorem walkAll_keeps {all : List Attribute} (hdistinct : DistinctNames all)
    (hsub : ∀ a ∈ as, a ∈ all) (hordered : (Json.object members).Ordered)
    (hvisits : ∀ a ∈ as, ∀ v : Json, v.Ordered →
      let w := (mutabilityEditor.visitAttribute ancestors reference a v).value
      w.Ordered ∧ ∀ key, ownedUnder (key, w) a = ownedUnder (key, v) a) :
    let kept := (mutabilityEditor.walkAll ancestors reference members as).run.value
    (Json.object kept).Ordered ∧ owned all kept = owned all members := by
  induction as generalizing members with
  | nil => exact ⟨hordered, rfl⟩
  | cons a rest ih =>
      obtain ⟨ha, hrest⟩ := List.forall_mem_cons.mp hsub
      obtain ⟨hvisit, hothers⟩ := List.forall_mem_cons.mp hvisits
      obtain ⟨hw, hsame⟩ := hvisit (members.valueOf a.name) (Json.ordered_valueOf hordered a.name)
      have hstored := Walk.Editor.ordered_store hordered a.name hw
      have howned := owned_store hdistinct ha (Json.ordered_keys hordered) hsame
      rw [Walk.Editor.walkAll, Walk.Editor.walkAttribute_eq, pure_bind]
      -- Where the walk ends with an error, what it has changed so far is all it changes.
      rcases hstore : store members a.name (mutabilityEditor.visitAttribute ancestors reference a
        (members.valueOf a.name)) with ⟨next, cause | _⟩
      · rw [hstore] at hstored howned
        exact ⟨hstored, howned⟩
      · rw [hstore] at hstored howned
        obtain ⟨hkept, hall⟩ := ih hrest hstored hothers
        exact ⟨hkept, hall.trans howned⟩

/-- The visit of an attribute keeps what the client owns of its members. -/
theorem visitAttribute_keeps (hsound : a.Sound)
    (hreference : ∀ others ∈ reference, (Json.object others).Ordered) (hordered : v.Ordered) :
    let w := (mutabilityEditor.visitAttribute ancestors reference a v).value
    w.Ordered ∧ ∀ key, ownedUnder (key, w) a = ownedUnder (key, v) a := by
  induction hsound generalizing ancestors reference v with
  | @intro a placed names distinct complex subs ih =>
      have hstored : ∀ u ∈ reference.bind fun r => r.named? a.name, u.Ordered := by
        intro u hu
        obtain ⟨others, hothers, hnamed⟩ := Option.bind_eq_some_iff.mp hu
        have hvalue := Json.ordered_valueOf (hreference others hothers) a.name
        rwa [Members.valueOf, hnamed] at hvalue
      by_cases hro : a.mutability = .readOnly
      · -- A read-only value is erased, whichever it is.
        rw [visitAttribute_readOnly hro]
        refine ⟨?_, fun key => ?_⟩
        · dsimp only
          split
          · exact hordered
          · cases hfound : reference.bind fun r => r.named? a.name with
            | none => exact .null
            | some u => exact hstored u hfound
        · rw [ownedUnder_eq, ownedUnder_eq, if_pos (.inl hro), if_pos (.inl hro)]
      · have hbelow : SameOwnedBelow (fun ancestors reference members =>
            mutabilityEditor.walkAll ancestors reference members a.subAttributes)
            (owned a.subAttributes) :=
          fun ancestors reference members hothers hinner =>
            walkAll_keeps distinct (fun _ hs => hs) hinner fun s hs _ hv => ih s hs hothers hv
        obtain ⟨hw, hsame⟩ := visitWhole_keeps ⟨a, _, ancestors, none⟩
          ⟨placed, names, distinct, complex, subs⟩ hbelow hro hstored hordered
        exact ⟨hw, fun key => ownedUnder_congr hsame⟩

/-! ## The enforcement -/

/-- What no attribute has the name of is owned as it is, so it is told by what is owned. -/
theorem get?_eq_of_owned (hkept : kept.InOrder) (hordered : members.InOrder)
    (h : owned as kept = owned as members) (hkey : ∀ a ∈ as, Text.alike key a.name = false) :
    kept.get? key = members.get? key := by
  have hread : ∀ {ms : Members}, ms.InOrder → (owned as ms).get? key = ms.get? key := by
    intro ms hms
    rw [get?_owned hms]
    cases ms.get? key with
    | none => rfl
    | some u =>
        rw [Option.bind_some, ownedAmong_of_unnamed hkey]
        rfl
  rw [← hread hkept, h, hread hordered]

/-- What is owned of a value that is not `null` is told by what is owned of the object. -/
theorem exists_of_owned (hkept : kept.InOrder) (hordered : members.InOrder)
    (h : owned as kept = owned as members) (hdistinct : DistinctNames as) (ha : a ∈ as)
    (hset : a.mutability ≠ .readOnly) (hkey : Text.alike key a.name = true)
    (hget : members.get? key = some v) (hfull : v.isNull = false) :
    ∃ w, kept.get? key = some w ∧
      ownedWhole a (owned a.subAttributes) w = ownedWhole a (owned a.subAttributes) v := by
  have hunder : ∀ u, ownedAmong (key, u) as = ownedUnder (key, u) a :=
    fun u => ownedAmong_of_alike hdistinct ha hkey
  have hread : (owned as kept).get? key = some (ownedWhole a (owned a.subAttributes) v) := by
    rw [h, get?_owned hordered, hget, Option.bind_some, hunder, ownedUnder_eq,
      if_neg (by simp [hset, hfull])]
    rfl
  rw [get?_owned hkept] at hread
  obtain ⟨w, hw, hsame⟩ := Option.bind_eq_some_iff.mp hread
  refine ⟨w, hw, ?_⟩
  rw [hunder, ownedUnder_eq] at hsame
  split at hsame
  · cases hsame
  · exact Option.some.inj hsame

/-- Only an array of as many elements is owned like an array. -/
theorem exists_array_of_ownedWhole (h : ownedWhole a erase w = ownedWhole a erase (.array items)) :
    ∃ others, w = .array others ∧ others.length = items.length := by
  cases w with
  | array others =>
      refine ⟨others, rfl, ?_⟩
      rw [ownedWhole, ownedWhole] at h
      split at h
      · simpa using congrArg List.length (Json.array.inj h)
      · rw [Json.array.inj h]
  | object members =>
      rw [ownedWhole, ownedWhole, ownedSingle] at h
      split at h <;> split at h <;> cases h
      exact nofun
  | _ =>
      rw [ownedWhole, ownedWhole] at h
      split at h <;> cases h
      exact nofun

/-- Whether it ends well or not, the enforcement of mutability keeps all that the client owns.  So
it keeps the members that are not described, and the arrays keep the number of their elements. -/
theorem enforceMutability_keeps_owned {schema : Schema} {r : Resource} {stored : Option Resource}
    (h : schema.Accepted) (hordered : (Json.object r.members).Ordered)
    (hstored : ∀ s ∈ stored, (Json.object s.members).Ordered) :
    let kept := (enforceMutability schema stored r).value
    owned schema.attributes kept.members = owned schema.attributes r.members ∧
      (∀ key, (∀ a ∈ schema.attributes, Text.alike key a.name = false) →
        kept.members.get? key = r.members.get? key) ∧
      ∀ a ∈ schema.attributes, a.mutability ≠ .readOnly → ∀ key items,
        Text.alike key a.name = true → r.members.get? key = some (.array items) →
        ∃ others, kept.members.get? key = some (.array others) ∧
          others.length = items.length := by
  have hreference : ∀ others ∈ stored.map (·.members), (Json.object others).Ordered := by
    intro others hothers
    obtain ⟨s, hs, rfl⟩ := Option.map_eq_some_iff.mp hothers
    exact hstored s hs
  obtain ⟨hkept, howned⟩ := walkAll_keeps h.sound.distinct (fun _ ha => ha) hordered
    fun a ha v hv => visitAttribute_keeps (h.sound.sub ha) hreference hv
  have hkept := Json.ordered_keys hkept
  have hordered := Json.ordered_keys hordered
  refine ⟨howned, fun key => get?_eq_of_owned hkept hordered howned, ?_⟩
  intro a ha hset key items hkey hget
  obtain ⟨w, hw, hsame⟩ := exists_of_owned hkept hordered howned h.sound.distinct ha hset hkey hget
    rfl
  obtain ⟨others, rfl, hlength⟩ := exists_array_of_ownedWhole hsame
  exact ⟨others, hw, hlength⟩

/-- The enforcement drops the name that the client has sent for an element before it finds that the
type of the element has changed.  The unknown member and both elements stay. -/
theorem enforceMutability_keeps_owned_group :
    let stored : Resource := ⟨[("displayName", .string "A"),
      ("members", .array [.object [("type", .string "User"), ("value", .string "u1")]])]⟩
    let r : Resource := ⟨[("ID", .string "g2"), ("extra", .null),
      ("members", .array [.object [("display", .string "Ann"), ("type", .string "Group"),
        ("value", .string "u1")], .string "u2"])]⟩
    let edited := enforceMutability Schema.group (some stored) r
    Schema.group.Accepted ∧ (Json.object r.members).Ordered ∧
      (Json.object stored.members).Ordered ∧
      edited.result = .error (.immutable "members.type") ∧
      edited.value.members.get? "members" = some (.array
        [.object [("type", .string "Group"), ("value", .string "u1")], .string "u2"]) ∧
      owned Schema.group.attributes edited.value.members = [("extra", .null),
        ("members", .array [.object [("type", .string "Group"), ("value", .string "u1")],
          .string "u2"])] := by
  have hgroup : Schema.group.Accepted := .built Schema.build_group
  refine ⟨hgroup, by decide, by decide, rfl, rfl, ?_⟩
  refine (enforceMutability_keeps_owned hgroup (by decide) fun s hs => ?_).1.trans rfl
  cases hs
  decide

end Scim.Validation
