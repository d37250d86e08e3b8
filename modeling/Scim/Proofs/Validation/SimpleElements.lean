import Scim.Proofs.Validation.Pairing
import Scim.Proofs.Validation.Passing

/-!
# Simple elements that come back

An element of an array that has nothing below its sub-attributes passes its comparisons exactly if
its immutable values are those of all the elements that it meets, and what is read-only in it comes
out as in the last one.  So if all elements of the array come back, then all that have one value of
the index key have the same read-only values, and they are consistent
(`consistent_of_comesBack`).
-/

namespace Scim.Validation

open Walk (pairsByKey)

/-- Elements of an array that have nothing below their sub-attributes, and one spelling of each
name. -/
structure AreSimple (a : Attribute) (items : List Json) : Prop where
  free : a.mutability = .readWrite
  complex : a.isComplex = true
  subs : ∀ s ∈ a.subAttributes, s.isComplex = false ∧ s.multiValued = false
  keys : ∀ members : Members, .object members ∈ items → members.InOrder ∧ members.DistinctKeys

variable {a s : Attribute} {members others kept : Members} {items found : List Json}
  {stored : Option Json} {v w p q e : Json} {visit : Walk.Visit (Option Json)}
  {ancestors : List (Walk.Frame (Option Json))} {reference : Option Members}

/-! ## Elements with one key -/

/-- Paired elements are paired with the same ones. -/
theorem pairsByKey_trans (h : pairsByKey a v p = true) (q : Json) :
    pairsByKey a p q = pairsByKey a v q := by
  obtain ⟨members, others, rfl, rfl⟩ := exists_object_of_pairsByKey h
  unfold pairsByKey at h ⊢
  cases hindex : a.indexKey with
  | none => rfl
  | some key =>
      simp only [hindex] at h
      cases hv : Members.named? members key with
      | none =>
          rw [hv] at h
          cases h
      | some x =>
          cases hw : Members.named? others key with
          | none =>
              rw [hv, hw] at h
              cases h
          | some y =>
              rw [hv, hw, Bool.and_eq_true] at h
              obtain ⟨hfull, hbeq⟩ := h
              cases q with
              | object third =>
                  dsimp only
                  rw [hv, hw]
                  cases Members.named? third key with
                  | none => rfl
                  | some z =>
                      dsimp only
                      rw [Json.isNull_eq_of_beq hbeq, Json.beq_comm y z, Json.beq_comm x z,
                        Json.beq_congr hbeq z]
              | _ => rfl

/-- Elements that meet are compared with the same elements. -/
theorem partners_congr (h : p ∈ partners a stored v) :
    partners a stored p = partners a stored v := by
  obtain ⟨hcomplex, _, hpairs⟩ := mem_partners.mp h
  rw [partners, partners, Walk.Editor.partners, Walk.Editor.partners, if_pos hcomplex,
    if_pos hcomplex]
  exact List.filter_congr fun q _ => pairsByKey_trans hpairs q

/-- An element that meets others meets a last one, and it is an object. -/
theorem exists_last (h : partners a stored v ≠ []) :
    ∃ last, (partners a stored v).getLast? = some (.object last) := by
  have hmem := List.getLast_mem h
  obtain ⟨_, last, _, hlast⟩ := exists_object_of_pairsByKey (mem_partners.mp hmem).2.2
  exact ⟨last, hlast ▸ List.getLast?_eq_some_getLast h⟩

/-! ## Comparisons -/

/-- A comparison that has ended well: what is read-only is as in the other element, and the rest
is as before and fits. -/
structure Compared (a : Attribute) (members others kept : Members) : Prop where
  order : kept.InOrder
  keys : kept.DistinctKeys
  readOnly : ∀ s ∈ a.subAttributes, s.mutability = .readOnly →
    (kept.valueOf s.name == others.valueOf s.name) = true
  settable : ∀ s ∈ a.subAttributes, s.mutability ≠ .readOnly →
    kept.valueOf s.name = members.valueOf s.name ∧
      Fits s (others.named? s.name) (members.valueOf s.name)

theorem beq_of_hasValue {name : String} (h : HasValue members name v) :
    (members.valueOf name == v) = true := by
  unfold HasValue at h
  split at h
  case isTrue hnull =>
      rw [Members.valueOf, h, eq_null_of_isNull hnull]
      rfl
  case isFalse =>
      obtain ⟨w, hw, hbeq⟩ := h
      rwa [Members.valueOf_of_named? hw]

theorem compared_of_walkAll (hsound : a.Sound)
    (hsubs : ∀ s ∈ a.subAttributes, s.isComplex = false)
    (hordered : members.InOrder) (hkeys : members.DistinctKeys)
    (h : mutabilityEditor.walkAll ancestors (some others) members a.subAttributes =
      pure ⟨kept, .ok ()⟩) : Compared a members others kept := by
  obtain ⟨hordered', hkeys'⟩ := Walk.Editor.walkAll_keys h hordered hkeys
  refine ⟨hordered', hkeys', fun s hs hro => ?_, fun s hs hset => ⟨?_, ?_, ?_⟩⟩
  · exact beq_of_hasValue (hasValue_of_readOnly hsound hs hro hkeys h)
  · exact valueOf_of_walkAll hsound hs hset (hsubs s hs) hkeys h
  · exact fun hro => absurd hro hset
  · intro him p hp hassigned
    obtain ⟨v, hvisit, _⟩ := Walk.Editor.walkAll_named? h hsound.distinct hs hkeys
    exact beq_of_visitAttribute him hvisit hp hassigned

/-- The comparisons of an object with other ones, one after the other. -/
theorem compared_of_visitBeside (hsound : a.Sound)
    (hsubs : ∀ s ∈ a.subAttributes, s.isComplex = false) (ha : Opens a)
    (hvisit : visit.descriptor = a) (hordered : members.InOrder) (hkeys : members.DistinctKeys)
    (hfound : ∀ p ∈ found, ∃ others, p = .object others)
    (h : mutabilityEditor.visitBeside (enforceBelow a) visit (.object members) found =
      pure ⟨w, .ok ()⟩) :
    ∃ kept : Members, w = .object kept ∧
      (∀ last : Members, found.getLast? = some (.object last) →
        ∀ s ∈ a.subAttributes, s.mutability = .readOnly →
          (kept.valueOf s.name == last.valueOf s.name) = true) ∧
      ∀ others : Members, .object others ∈ found → ∀ s ∈ a.subAttributes,
        s.mutability ≠ .readOnly → Fits s (others.named? s.name) (members.valueOf s.name) := by
  subst hvisit
  induction found generalizing members with
  | nil =>
      cases h
      exact ⟨members, rfl, nofun, nofun⟩
  | cons p rest ih =>
      obtain ⟨⟨others, rfl⟩, hrest⟩ := List.forall_mem_cons.mp hfound
      obtain ⟨next, hnext, hlater⟩ := Walk.Editor.visitBeside_cons_eq_ok h
      let first : Walk.Visit (Option Json) := { visit with content := some (.object others) }
      have hopens : Opens first.descriptor := ha
      obtain ⟨next, rfl, hwalk⟩ := object_of_visitElement hopens hnext
      have hcompared := compared_of_walkAll hsound hsubs hordered hkeys hwalk
      obtain ⟨kept, rfl, hlast, hfits⟩ := ih hcompared.order hcompared.keys hrest hlater
      refine ⟨kept, rfl, fun last hgetLast => ?_, fun others' hothers => ?_⟩
      · cases rest with
        | nil =>
            cases hgetLast
            cases hlater
            exact hcompared.readOnly
        | cons q rest =>
            rw [List.getLast?_cons_cons] at hgetLast
            exact hlast last hgetLast
      · intro s hs hset
        obtain ⟨hsame, hfirst⟩ := hcompared.settable s hs hset
        rcases List.mem_cons.mp hothers with heq | hothers
        · cases heq
          exact hfirst
        · exact hsame ▸ hfits others' hothers s hs hset

/-! ## Elements that come back -/

/-- An object that comes back and meets others has the read-only values of the last one, and its
other values fit beside all of them. -/
theorem fits_of_comesBack (hsound : a.Sound) (ha : Opens a.singleValued)
    (hsubs : ∀ s ∈ a.subAttributes, s.isComplex = false ∧ s.multiValued = false)
    (hordered : members.InOrder) (hkeys : members.DistinctKeys)
    (h : ComesBack a items (.object members))
    (hmeets : partners a (some (.array items)) (.object members) ≠ []) :
    (∀ last : Members,
      (partners a (some (.array items)) (.object members)).getLast? = some (.object last) →
        ∀ s ∈ a.subAttributes, s.mutability = .readOnly →
          (members.valueOf s.name == last.valueOf s.name) = true) ∧
      ∀ others : Members, .object others ∈ partners a (some (.array items)) (.object members) →
        ∀ s ∈ a.subAttributes, s.mutability ≠ .readOnly →
          Fits s (others.named? s.name) (members.valueOf s.name) := by
  obtain ⟨w, hw, hsheds⟩ := h
  have hobjects : ∀ p ∈ partners a (some (.array items)) (.object members),
      ∃ others, p = .object others := by
    intro p hp
    obtain ⟨_, others, _, hothers⟩ := exists_object_of_pairsByKey (mem_partners.mp hp).2.2
    exact ⟨others, hothers⟩
  let visit : Walk.Visit (Option Json) :=
    ⟨a.element, none, Walk.Visit.below ⟨a, some (.array items), [], none⟩, some 0⟩
  have hvisits : mutabilityEditor.visitBeside (enforceBelow a.singleValued) visit (.object members)
      (partners a (some (.array items)) (.object members)) = pure ⟨w, .ok ()⟩ := by
    unfold compareElement Walk.Editor.visitPaired at hw
    dsimp only at hw
    split at hw
    case h_1 hnone => exact absurd hnone hmeets
    case h_2 hfound =>
        rw [partners, hfound]
        exact hw
  obtain ⟨kept, rfl, hlast, hfits⟩ := compared_of_visitBeside hsound.singleValued
    (fun s hs => (hsubs s hs).1) ha hsound.element_eq hordered hkeys hobjects hvisits
  have hsubs' : ∀ s ∈ a.singleValued.subAttributes, s.isComplex = false ∧ s.multiValued = false :=
    hsubs
  obtain ⟨_, hkept, _, _, hsame⟩ := hsheds.valueOf_eq hsubs' members rfl hordered hkeys
  cases hkept
  refine ⟨fun last hgetLast s hs hro => ?_, hfits⟩
  rw [← hsame s hs]
  exact hlast last hgetLast s hs hro

/-- An object that comes back and meets nothing has no read-only values. -/
theorem holdsNoReadOnly_of_comesBack (hsound : a.Sound) (ha : Opens a.singleValued)
    (hsubs : ∀ s ∈ a.subAttributes, s.isComplex = false ∧ s.multiValued = false)
    (h : ComesBack a items (.object members))
    (hnone : partners a (some (.array items)) (.object members) = []) :
    HoldsNoReadOnly a.singleValued (.object members) := by
  obtain ⟨u, hu, hsheds⟩ := h
  let visit : Walk.Visit (Option Json) :=
    ⟨a.element, none, Walk.Visit.below ⟨a, some (.array items), [], none⟩, some 0⟩
  have hvisit : mutabilityEditor.visitElement (enforceBelow a) visit (.object members) =
      pure ⟨u, .ok ()⟩ := by
    unfold compareElement Walk.Editor.visitPaired at hu
    dsimp only at hu
    rw [partners] at hnone
    rw [hnone] at hu
    exact hu
  have hopens : Opens visit.descriptor := by
    rw [show visit.descriptor = a.singleValued from hsound.element_eq]
    exact ha
  obtain ⟨kept, rfl, hwalk⟩ := object_of_visitElement hopens hvisit
  intro b w hreach hro
  cases hreach with
  | self => exact absurd hro ha.settable
  | @member _ s _ _ _ _ hs hreach =>
      obtain ⟨hcomplex, hsingle⟩ := hsubs s hs
      obtain ⟨rfl, rfl⟩ := hreach.eq_of_simple hcomplex hsingle
      by_contra hfull
      obtain ⟨x, hx, hsheds⟩ := exists_visit_of_walkAll hsound.singleValued hs hwalk hsheds hfull
      have hnull : x = .null := by
        have hvalue := congrArg Walk.Edited.value (visitAttribute_readOnly hro ▸ hx).symm
        dsimp only at hvalue
        rw [hvalue]
        split
        case isTrue hbeq => exact eq_null_of_isNull ((Json.isNull_eq_of_beq hbeq).trans rfl)
        case isFalse => rfl
      exact hfull (hsheds.null_iff.mpr hnull)

/-- If simple elements of an array come back, all of them, then they are consistent. -/
theorem consistent_of_comesBack (hsound : a.Sound) (hsimple : AreSimple a items)
    (h : ∀ e ∈ items, ComesBack a items e) : ∀ e ∈ items, Consistent a items e := by
  obtain ⟨hfree, hcomplex, hsubs, hitems⟩ := hsimple
  have ha : Opens a.singleValued := by
    refine ⟨fun hro => ?_, rfl, hcomplex⟩
    cases hfree.symm.trans hro
  intro e he
  by_cases hobject : ∃ members, e = .object members
  case neg =>
    have hnone : partners a (some (.array items)) e = [] :=
      partners_of_not_object fun members hmembers => hobject ⟨members, hmembers⟩
    refine consistent_of_alone hnone fun b w hreach hro => ?_
    cases hreach with
    | self => exact absurd hro ha.settable
    | member _ _ _ => exact absurd ⟨_, rfl⟩ hobject
    | item _ hmulti _ _ => cases hmulti
  case pos =>
    obtain ⟨members, rfl⟩ := hobject
    obtain ⟨hordered, hkeys⟩ := hitems members he
    by_cases hnone : partners a (some (.array items)) (.object members) = []
    · exact consistent_of_alone hnone
        (holdsNoReadOnly_of_comesBack hsound ha hsubs (h _ he) hnone)
    · have hmeets := fits_of_comesBack hsound ha hsubs hordered hkeys (h _ he) hnone
      refine consistent_of_simple hfree hsubs hordered hkeys hnone fun others hothers s hs => ?_
      by_cases hro : s.mutability = .readOnly
      · -- Both have the read-only values of the last one that they meet.
        have hsame := partners_congr hothers
        have hmem : .object others ∈ items := (mem_partners.mp hothers).2.1
        obtain ⟨hordered', hkeys'⟩ := hitems others hmem
        obtain ⟨last, hlast⟩ := exists_last hnone
        have hbeq := hmeets.1 last hlast s hs hro
        have hbeq' := (fits_of_comesBack hsound ha hsubs hordered' hkeys' (h _ hmem)
          (hsame ▸ hnone)).1 last (hsame ▸ hlast) s hs hro
        refine ⟨fun _ => ?_, fun him => ?_⟩
        · exact (Json.beq_congr hbeq' _).trans hbeq
        · cases hro.symm.trans him
      · exact hmeets.2 others hothers s hs hro

end Scim.Validation
