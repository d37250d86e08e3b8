import Scim.Proofs.Json.Equality
import Scim.Proofs.Validation.Shedding
import Scim.Proofs.Walk.Siblings
import Scim.Validation.Mutability

/-!
# What enforcement keeps of a value

The enforcement of mutability changes little in a value that is equal to the stored one.

* Members that are `null` are dropped, if the schema describes them.
* An element of an array that is *told apart*, since no other element has the same value of the
  index key, is compared with its stored version, and nothing but `null` is dropped in it.
* Any other element is compared with several elements or with none.  A read-only sub-attribute of
  it may get another value or lose the one that it has.

`Retains loose a v w` says that `w` is left of `v` when nothing else happens, where `loose` tells
whether the value is in an element that is not told apart.  It holds whenever the visit ends well
(`visitAttribute_retains`).
-/

namespace Scim.Validation

open Attribute (DistinctNames)
open Walk (pairsByKey)

/-- Whether an element of an array is paired with one of the elements only. -/
def isToldApart (a : Attribute) (items : List Json) (v : Json) : Bool :=
  (items.filter fun p => pairsByKey a v p).length == 1

/-- The value `w` of an attribute is left of `v` by an enforcement of mutability. -/
inductive Retains : Bool → Attribute → Json → Json → Prop where
  | refl {loose : Bool} {a : Attribute} {v : Json} : Retains loose a v v
  /-- The slot of every sub-attribute has what is left of its value, and is empty if that is
  `null`.  What is left of a read-only value may be anything in a loose element. -/
  | object {loose : Bool} {a : Attribute} {members kept : Members} (ha : Opens a)
      (value : Attribute → Json)
      (hvalue : ∀ s ∈ a.subAttributes, loose = false ∨ s.mutability ≠ .readOnly →
        Retains loose s (members.valueOf s.name) (value s))
      (hput : ∀ s ∈ a.subAttributes, (value s).isNull = false →
        kept.named? s.name = some (value s))
      (hgone : ∀ s ∈ a.subAttributes, (value s).isNull = true →
        kept.get? (members.slot s.name) = none)
      (hother : ∀ key, (∀ s ∈ a.subAttributes, members.slot s.name ≠ key) →
        kept.get? key = members.get? key) :
      Retains loose a (.object members) (.object kept)
  | array {loose : Bool} {a : Attribute} {items kept : List Json}
      (hset : a.mutability ≠ .readOnly) (hmulti : a.multiValued = true)
      (hlength : kept.length = items.length)
      (hitems : ∀ (i : Nat) (v w : Json), items[i]? = some v → kept[i]? = some w →
        Retains (loose || !isToldApart a items v) a.singleValued v w) :
      Retains loose a (.array items) (.array kept)
  /-- A loose element may be visited several times. -/
  | again {a : Attribute} {u v w : Json} (h : Retains true a u v) (h' : Retains true a v w) :
      Retains true a u w

variable {loose : Bool} {a s : Attribute} {members kept : Members} {items : List Json}
  {v w p q : Json} {stored : Option Json} {ancestors : List (Walk.Frame (Option Json))}
  {reference : Option Members}

/-- What is left of a value is `null` exactly if the value is. -/
theorem Retains.isNull_eq (h : Retains loose a v w) : v.isNull = w.isNull := by
  induction h with
  | again _ _ ih ih' => exact ih.trans ih'
  | _ => rfl

/-! ## What a value is compared with -/

/-- A value that is in a loose element, or equal to its stored version. -/
def Agrees (loose : Bool) (stored : Option Json) (v : Json) : Prop :=
  loose = true ∨ (v == stored.getD .null) = true

/-- What agrees with a stored version agrees with it below an object. -/
theorem Agrees.member (h : Agrees loose stored (.object members)) (name : String) :
    Agrees loose ((stored.bind Json.object?).bind fun r => Members.named? r name)
      (members.valueOf name) := by
  rcases h with h | h
  · exact .inl h
  · refine .inr ?_
    cases stored with
    | none => cases h
    | some u =>
        cases u with
        | object others => exact Members.valueOf_of_sameMembers h name
        | _ => cases h

/-- Equal elements are paired with the same elements. -/
theorem pairsByKey_congr (h : (p == q) = true) : pairsByKey a v p = pairsByKey a v q := by
  unfold pairsByKey
  cases a.indexKey with
  | none => rfl
  | some key =>
      cases v with
      | object members =>
          cases p with
          | object others =>
              cases q with
              | object others' =>
                  have hnamed := Members.named?_of_sameMembers h key
                  dsimp only
                  generalize Members.named? others key = found,
                    Members.named? others' key = found' at hnamed
                  cases Members.named? members key with
                  | none => rfl
                  | some u =>
                      cases hnamed with
                      | none => rfl
                      | some hbeq => simp only [Json.beq_congr hbeq]
              | _ => cases h
          | _ =>
              cases q with
              | object others' => cases h
              | _ => rfl
      | _ => rfl

/-- An element that is paired with some element is paired with itself. -/
theorem pairsByKey_self (h : pairsByKey a v p = true) : pairsByKey a v v = true := by
  unfold pairsByKey at h ⊢
  cases hkey : a.indexKey with
  | none => simp [hkey] at h
  | some key =>
      cases v with
      | object members =>
          cases hv : Members.named? members key with
          | none => cases p <;> simp [hkey, hv] at h
          | some u =>
              have hfull : u.isNull = false := by
                cases p with
                | object others =>
                    cases hp : Members.named? others key <;> simp [hkey, hv, hp] at h
                    exact h.1
                | _ => simp [hkey] at h
              simp [hv, hfull, Json.beq_refl]
      | _ => simp [hkey] at h

/-- An element that is told apart is paired with its stored version and nothing else. -/
theorem partners_of_isToldApart (hcomplex : a.isComplex = true)
    (hapart : isToldApart a items v = true)
    (hagrees : (Json.array items == stored.getD .null) = true) (hv : v ∈ items) :
    ∃ p, mutabilityEditor.partners a stored v = [p] ∧ (v == p) = true := by
  obtain ⟨others, rfl, hsame⟩ : ∃ others : List Json, stored = some (.array others) ∧
      Json.sameItems items others = true := by
    cases stored with
    | none => cases hagrees
    | some u =>
        cases u with
        | array others => exact ⟨others, rfl, hagrees⟩
        | _ => cases hagrees
  have hpartners : mutabilityEditor.partners a (some (.array others)) v =
      others.filter fun p => pairsByKey a v p := by
    rw [Walk.Editor.partners, if_pos hcomplex]
    rfl
  have hone : (items.filter fun p => pairsByKey a v p).length = 1 := beq_iff_eq.mp hapart
  have hself : pairsByKey a v v = true := by
    obtain ⟨p, hp⟩ := List.length_eq_one_iff.mp hone
    have hmem : p ∈ items.filter fun p => pairsByKey a v p := by simp [hp]
    exact pairsByKey_self (List.mem_filter.mp hmem).2
  rw [Json.length_filter_of_sameItems (fun _ _ => pairsByKey_congr) hsame] at hone
  obtain ⟨p, hp⟩ := List.length_eq_one_iff.mp hone
  obtain ⟨q, hq, hvq⟩ := Json.exists_of_sameItems hsame hv
  have hmem : q ∈ others.filter fun p => pairsByKey a v p :=
    List.mem_filter.mpr ⟨hq, pairsByKey_congr hvq ▸ hself⟩
  rw [hp, List.mem_singleton] at hmem
  exact ⟨p, by rw [hpartners, hp], hmem ▸ hvq⟩

/-! ## Visits -/

/-- The visit of what is not read-only leaves the value as it is, and goes on unless it fails. -/
theorem visitMutability_settable (visit : Walk.Visit (Option Json))
    (h : visit.descriptor.mutability ≠ .readOnly) (v : Json) :
    mutabilityEditor.visit visit v = pure (v, .ok .goOn) ∨
      ∃ cause, mutabilityEditor.visit visit v = pure (v, .error cause) := by
  show visitMutability visit v = pure (v, .ok .goOn) ∨
    ∃ cause, visitMutability visit v = pure (v, .error cause)
  unfold visitMutability
  dsimp only
  split
  · exact absurd ‹_› h
  · split
    · exact .inr ⟨_, rfl⟩
    · exact .inl rfl
  · exact .inl rfl
  · exact .inl rfl

/-- The visit of a read-only attribute gives its stored value. -/
theorem visitAttribute_readOnly (h : a.mutability = .readOnly) :
    mutabilityEditor.visitAttribute ancestors reference a v =
      let stored := (reference.bind fun r => r.named? a.name).getD .null
      ⟨if v == stored then v else stored, .ok ()⟩ := by
  unfold Walk.Editor.visitAttribute Walk.Editor.visitWhole
  simp only [mutabilityEditor, visitMutability, h]
  rfl

/-- The visit of an attribute that holds an object walks through the object. -/
theorem walkAll_of_visitAttribute (ha : Opens a)
    (hvisit : mutabilityEditor.visitAttribute ancestors reference a (.object members) =
      ⟨w, .ok ()⟩) :
    ∃ (inner : List (Walk.Frame (Option Json))) (kept : Members), w = .object kept ∧
      mutabilityEditor.walkAll inner
        ((reference.bind fun r => r.named? a.name).bind Json.object?) members a.subAttributes =
          pure ⟨kept, .ok ()⟩ := by
  unfold Walk.Editor.visitAttribute at hvisit
  rw [Walk.Editor.visitWhole] at hvisit
  rcases visitMutability_settable ⟨a, reference.bind fun r => r.named? a.name, ancestors, none⟩
    ha.settable (.object members) with hgo | ⟨cause, hgo⟩
  · rw [hgo, pure_bind] at hvisit
    simp only [ha.complex, ha.single, Bool.not_false, Bool.and_self, if_true] at hvisit
    obtain ⟨kept, rfl, hkept⟩ := Walk.Editor.belowObject_eq_ok hvisit
    exact ⟨_, kept, rfl, hkept⟩
  · rw [hgo] at hvisit
    cases hvisit

/-- The visit of an element that is an object walks through the object. -/
theorem object_of_visitElement {inner : Walk.Editor.Inner Id Error}
    {visit : Walk.Visit (Option Json)} (ha : Opens visit.descriptor)
    (h : mutabilityEditor.visitElement inner visit (.object members) = pure ⟨w, .ok ()⟩) :
    ∃ kept, w = .object kept ∧
      inner visit.below (visit.content.bind Json.object?) members = pure ⟨kept, .ok ()⟩ := by
  rw [Walk.Editor.visitElement] at h
  rcases visitMutability_settable visit ha.settable (.object members) with hgo | ⟨cause, hgo⟩
  · rw [hgo, pure_bind] at h
    simp only [ha.complex, ha.single, Bool.not_false, Bool.and_self, if_true] at h
    exact Walk.Editor.belowObject_eq_ok h
  · rw [hgo] at h
    cases h

/-- The visit of an array visits its elements. -/
theorem elements_of_visitAttribute (hset : a.mutability ≠ .readOnly) (hmulti : a.multiValued = true)
    (hvisit : mutabilityEditor.visitAttribute ancestors reference a (.array items) =
      ⟨w, .ok ()⟩) :
    ∃ kept, w = .array kept ∧ mutabilityEditor.visitElements
      (fun ancestors reference members =>
        mutabilityEditor.walkAll ancestors reference members a.subAttributes)
      ⟨a, reference.bind fun r => r.named? a.name, ancestors, none⟩ 0 items =
        pure ⟨kept, .ok ()⟩ := by
  unfold Walk.Editor.visitAttribute at hvisit
  rw [Walk.Editor.visitWhole] at hvisit
  rcases visitMutability_settable ⟨a, reference.bind fun r => r.named? a.name, ancestors, none⟩
    hset (.array items) with hgo | ⟨cause, hgo⟩
  · rw [hgo, pure_bind] at hvisit
    simp only [hmulti, if_true] at hvisit
    exact Walk.Editor.elements_eq_ok hvisit
  · rw [hgo] at hvisit
    cases hvisit

/-! ## The walk -/

variable {inner : Walk.Editor.Inner Id Error} {visit whole : Walk.Visit (Option Json)}

/-- Going on below objects of an attribute keeps what agrees with its stored version. -/
def RetainsBelow (loose : Bool) (inner : Walk.Editor.Inner Id Error) (a : Attribute) : Prop :=
  ∀ (ancestors : List (Walk.Frame (Option Json))) (reference : Option Members)
    (members kept : Members),
    (∀ s ∈ a.subAttributes, Agrees loose (reference.bind fun r => r.named? s.name)
      (members.valueOf s.name)) →
    inner ancestors reference members = pure ⟨kept, .ok ()⟩ →
    Retains loose a (.object members) (.object kept)

/-- Below an object that agrees with its stored version. -/
theorem belowObject_retains (hset : visit.descriptor.mutability ≠ .readOnly)
    (hagrees : Opens visit.descriptor → Agrees loose visit.content (.object members))
    (hinner : Opens visit.descriptor → RetainsBelow loose inner visit.descriptor)
    (h : (if visit.descriptor.isComplex && !visit.descriptor.multiValued then
          Walk.Editor.belowObject inner visit members
        else pure ⟨.object members, .ok ()⟩ : Id (Walk.Edited Error Json)) = pure ⟨w, .ok ()⟩) :
    Retains loose visit.descriptor (.object members) w := by
  split at h
  case isTrue hopens =>
      obtain ⟨hcomplex, hsingle⟩ := Bool.and_eq_true_iff.mp hopens
      have ha : Opens visit.descriptor := ⟨hset, (Bool.not_eq_true' _).mp hsingle, hcomplex⟩
      obtain ⟨kept, rfl, hkept⟩ := Walk.Editor.belowObject_eq_ok h
      exact hinner ha visit.below _ members kept (fun s _ => (hagrees ha).member s.name) hkept
  case isFalse =>
      cases h
      exact .refl

theorem visitElement_retains (visit : Walk.Visit (Option Json))
    (hset : visit.descriptor.mutability ≠ .readOnly)
    (hagrees : Opens visit.descriptor → Agrees loose visit.content v)
    (hinner : Opens visit.descriptor → RetainsBelow loose inner visit.descriptor)
    (h : mutabilityEditor.visitElement inner visit v = pure ⟨w, .ok ()⟩) :
    Retains loose visit.descriptor v w := by
  rw [Walk.Editor.visitElement] at h
  rcases visitMutability_settable visit hset v with hvisit | ⟨cause, hvisit⟩
  · rw [hvisit, pure_bind] at h
    cases v with
    | object members => exact belowObject_retains hset hagrees hinner h
    | _ =>
        cases h
        exact .refl
  · rw [hvisit] at h
    cases h

theorem visitBeside_retains {found : List Json} (hset : visit.descriptor.mutability ≠ .readOnly)
    (hinner : Opens visit.descriptor → RetainsBelow true inner visit.descriptor)
    (h : mutabilityEditor.visitBeside inner visit v found = pure ⟨w, .ok ()⟩) :
    Retains true visit.descriptor v w := by
  induction found generalizing v with
  | nil =>
      cases h
      exact .refl
  | cons p rest ih =>
      obtain ⟨u, hu, hrest⟩ := Walk.Editor.visitBeside_cons_eq_ok h
      have hfirst := visitElement_retains { visit with content := some p } hset
        (fun _ => .inl rfl) hinner hu
      exact hfirst.again (ih hrest)

/-- An element that is told apart is visited beside its stored version. -/
theorem visitPaired_retains {position : Nat} (hsound : whole.descriptor.Sound)
    (hset : whole.descriptor.mutability ≠ .readOnly)
    (hagrees : Agrees loose whole.content (.array items)) (hv : v ∈ items)
    (hinner : ∀ loose, Opens whole.descriptor.singleValued →
      RetainsBelow loose inner whole.descriptor.singleValued)
    (h : mutabilityEditor.visitPaired inner whole position v = ⟨w, .ok ()⟩) :
    Retains (loose || !isToldApart whole.descriptor items v) whole.descriptor.singleValued v w := by
  have helement : whole.descriptor.element = whole.descriptor.singleValued := hsound.element_eq
  rw [← helement] at hinner ⊢
  have hset' : whole.descriptor.element.mutability ≠ .readOnly := helement ▸ hset
  let visit : Walk.Visit (Option Json) :=
    ⟨whole.descriptor.element, none, whole.below, some position⟩
  cases hflag : loose || !isToldApart whole.descriptor items v with
  | true =>
      unfold Walk.Editor.visitPaired at h
      split at h
      · exact visitElement_retains visit hset' (fun _ => .inl rfl) (hinner true) h
      · exact visitBeside_retains hset' (hinner true) h
  | false =>
      obtain ⟨hstrict, hapart⟩ : loose = false ∧ isToldApart whole.descriptor items v = true := by
        simpa using hflag
      unfold Walk.Editor.visitPaired at h
      by_cases hcomplex : whole.descriptor.isComplex = true
      · have hequal : (Json.array items == whole.content.getD .null) = true :=
          hagrees.resolve_left (by simp [hstrict])
        obtain ⟨p, hpartners, hvp⟩ := partners_of_isToldApart hcomplex hapart hequal hv
        rw [hpartners] at h
        obtain ⟨u, hu, hrest⟩ := Walk.Editor.visitBeside_cons_eq_ok h
        cases hrest
        exact visitElement_retains { visit with content := some p } hset' (fun _ => .inr hvp)
          (hinner false) hu
      · have hpartners : mutabilityEditor.partners whole.descriptor whole.content v = [] :=
          if_neg hcomplex
        rw [hpartners] at h
        refine visitElement_retains visit hset' (fun hopens => absurd ?_ hcomplex) (hinner false) h
        have hsame : whole.descriptor.singleValued.isComplex = true := helement ▸ hopens.complex
        exact hsame

theorem visitWhole_retains (visit : Walk.Visit (Option Json)) (hsound : visit.descriptor.Sound)
    (hset : visit.descriptor.mutability ≠ .readOnly) (hagrees : Agrees loose visit.content v)
    (hinner : ∀ (loose : Bool) (e : Attribute),
      e.subAttributes = visit.descriptor.subAttributes → Opens e → RetainsBelow loose inner e)
    (h : mutabilityEditor.visitWhole inner visit v = pure ⟨w, .ok ()⟩) :
    Retains loose visit.descriptor v w := by
  rw [Walk.Editor.visitWhole] at h
  rcases visitMutability_settable visit hset v with hvisit | ⟨cause, hvisit⟩
  · rw [hvisit, pure_bind] at h
    cases v with
    | object members =>
        exact belowObject_retains hset (fun _ => hagrees) (hinner loose _ rfl) h
    | array items =>
        dsimp only at h
        split at h
        case isTrue hmulti =>
            obtain ⟨kept, rfl, hkept⟩ := Walk.Editor.elements_eq_ok h
            obtain ⟨hlength, hitems⟩ := Walk.Editor.visitElements_each hkept
            refine .array hset hmulti hlength fun i v w hv hw => ?_
            exact visitPaired_retains hsound hset hagrees (List.mem_of_getElem? hv)
              (fun loose => hinner loose _ rfl) (hitems i v w hv hw)
        case isFalse =>
            cases h
            exact .refl
    | _ =>
        cases h
        exact .refl
  · rw [hvisit] at h
    cases h

/-- The walk through sub-attributes, each of which keeps what agrees with its stored version. -/
theorem walkAll_retains (ha : Opens a) (hdistinct : DistinctNames a.subAttributes)
    (hvisits : ∀ s ∈ a.subAttributes, ∀ (v w : Json), s.mutability ≠ .readOnly →
      Agrees loose (reference.bind fun r => r.named? s.name) v →
      mutabilityEditor.visitAttribute ancestors reference s v = ⟨w, .ok ()⟩ → Retains loose s v w)
    (hagrees : ∀ s ∈ a.subAttributes, Agrees loose (reference.bind fun r => r.named? s.name)
      (members.valueOf s.name))
    (h : mutabilityEditor.walkAll ancestors reference members a.subAttributes =
      pure ⟨kept, .ok ()⟩) :
    Retains loose a (.object members) (.object kept) := by
  let value (s : Attribute) : Json :=
    (mutabilityEditor.visitAttribute ancestors reference s (members.valueOf s.name)).value
  have hstores : ∀ s ∈ a.subAttributes, ∃ before, before.under s.name = members.under s.name ∧
      mutabilityEditor.visitAttribute ancestors reference s (members.valueOf s.name) =
        ⟨value s, .ok ()⟩ ∧
      kept.under s.name = (Walk.Editor.store before s.name
        (⟨value s, .ok ()⟩ : Walk.Edited Error Json)).value.under s.name := by
    intro s hs
    obtain ⟨before, u, hbefore, hu, hkept⟩ := Walk.Editor.walkAll_visits h hdistinct hs
    have hvalue : value s = u := congrArg Walk.Edited.value hu
    exact ⟨before, hbefore, hvalue ▸ hu, hvalue ▸ hkept⟩
  refine .object ha value ?hvalue ?hput ?hgone ?hother
  case hvalue =>
    intro s hs hfree
    obtain ⟨_, _, hvisit, _⟩ := hstores s hs
    by_cases hro : s.mutability = .readOnly
    · have hstrict : loose = false := hfree.resolve_right fun hset => hset hro
      have hequal := (hagrees s hs).resolve_left (by simp [hstrict])
      have hvalue := congrArg Walk.Edited.value (visitAttribute_readOnly hro ▸ hvisit).symm
      dsimp only at hvalue
      rw [if_pos hequal] at hvalue
      rw [hvalue]
      exact .refl
    · exact hvisits s hs _ _ hro (hagrees s hs) hvisit
  case hput =>
    intro s hs hfull
    obtain ⟨before, _, _, hkept⟩ := hstores s hs
    rw [Members.named?_congr hkept, Walk.Editor.named?_store hfull]
  case hgone =>
    intro s hs hnull
    obtain ⟨before, hbefore, _, hkept⟩ := hstores s hs
    have hslot := Members.alike_slot members s.name
    rw [← Members.get?_under hslot, hkept, Members.get?_under hslot, eq_null_of_isNull hnull,
      Walk.Editor.store_null, Members.slot_congr hbefore, Members.get?_remove_self]
  case hother =>
    intro key hkey
    by_cases hdescribed : ∃ s ∈ a.subAttributes, Text.alike key s.name = true
    · obtain ⟨s, hs, halike⟩ := hdescribed
      obtain ⟨before, hbefore, _, hkept⟩ := hstores s hs
      have hslot : before.slot s.name ≠ key := Members.slot_congr hbefore ▸ hkey s hs
      rw [← Members.get?_under halike, hkept, Members.get?_under halike,
        Walk.Editor.get?_store_of_ne hslot, ← Members.get?_under halike, hbefore,
        Members.get?_under halike]
    · have hunder : kept.under key = members.under key := by
        refine Walk.Editor.walkAll_under h fun s hs => ?_
        rw [Text.alike_comm]
        exact Bool.eq_false_iff.mpr fun halike => hdescribed ⟨s, hs, halike⟩
      rw [← Members.get?_under (Text.alike_refl key), hunder,
        Members.get?_under (Text.alike_refl key)]

/-- What the visit of an attribute leaves of a value that it does not replace. -/
theorem visitAttribute_retains (hsound : a.Sound) (hset : a.mutability ≠ .readOnly)
    (hagrees : Agrees loose (reference.bind fun r => r.named? a.name) v)
    (h : mutabilityEditor.visitAttribute ancestors reference a v = ⟨w, .ok ()⟩) :
    Retains loose a v w := by
  induction hsound generalizing loose ancestors reference v w with
  | @intro a placed names distinct complex subs ih =>
      have hinner : ∀ (loose : Bool) (e : Attribute), e.subAttributes = a.subAttributes →
          Opens e → RetainsBelow loose (fun ancestors reference members =>
            mutabilityEditor.walkAll ancestors reference members a.subAttributes) e := by
        intro loose e hsubs he ancestors reference members kept hagrees hwalk
        rw [← hsubs] at ih distinct hwalk
        exact walkAll_retains he distinct (fun s hs _ _ hset hagrees hvisit =>
          ih s hs hset hagrees hvisit) hagrees hwalk
      exact visitWhole_retains ⟨a, _, ancestors, none⟩ ⟨placed, names, distinct, complex, subs⟩ hset
        hagrees hinner h

/-- The enforcement is a walk through the attributes of the schema. -/
theorem walkAll_of_enforceMutability {schema : Schema} {stored : Option Resource}
    {r kept : Resource} (h : enforceMutability schema stored r = ⟨kept, .ok ()⟩) :
    mutabilityEditor.walkAll [] (stored.map (·.members)) r.members schema.root.subAttributes =
      pure ⟨kept.members, .ok ()⟩ := by
  rcases hwalk : (mutabilityEditor.through schema (stored.map (·.members)) r.members).run with
    ⟨members, result⟩
  rw [enforceMutability, hwalk] at h
  cases h
  exact hwalk

theorem enforceMutability_of_walkAll {schema : Schema} {stored : Option Resource}
    {r kept : Resource}
    (h : mutabilityEditor.walkAll [] (stored.map (·.members)) r.members schema.root.subAttributes =
      pure ⟨kept.members, .ok ()⟩) :
    enforceMutability schema stored r = ⟨kept, .ok ()⟩ := by
  have hwalk : (mutabilityEditor.through schema (stored.map (·.members)) r.members).run =
      ⟨kept.members, .ok ()⟩ := h
  rw [enforceMutability, hwalk]

end Scim.Validation
