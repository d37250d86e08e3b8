import Scim.Proofs.Schema.Index
import Scim.Proofs.Validation.Immutability

/-!
# Elements that are told apart by a key

An element of an array is visited beside the stored elements with the same value of the index key.
If the stored elements have different values of it, every element is visited once: beside its
stored version, which gives back what is read-only and checks what is immutable (`Restores`), or
beside nothing, and then nothing read-only is left in it (`enforceMutability_pairs`).

The value of the key that counts is the one that the client has sent.  A key that is not complex
keeps it.  A complex one may lose a `null` inside it, like every complex sub-attribute, and then the
element comes out with another value of the key than its stored version
(`enforceMutability_changes_key`).
-/

namespace Scim.Validation

open Walk (pairsByKey)

variable {a s k : Attribute} {key name : String} {members old sent out : Members}
  {olds : List Members} {items : List Json} {v w : Json} {loose : Bool}
  {ancestors : List (Walk.Frame (Option Json))} {reference : Option Members}

/-! ## Values that are restored -/

/-- An object has a value under a name, and nothing if the value is `null`. -/
def HasValue (members : Members) (name : String) (v : Json) : Prop :=
  if v.isNull then members.named? name = none
  else ∃ w, members.named? name = some w ∧ (w == v) = true

/-- An element has the read-only values of its stored version, and it keeps the immutable ones that
are assigned there. -/
structure Restores (a : Attribute) (old out : Members) : Prop where
  readOnly : ∀ s ∈ a.subAttributes, s.mutability = .readOnly →
    HasValue out s.name (old.valueOf s.name)
  immutable : ∀ s ∈ a.subAttributes, s.mutability = .immutable → ∀ y, old.named? s.name = some y →
    s.isAssigned y = true → KeepsAt s [s] y (.object out)
  simple : ∀ s ∈ a.subAttributes, s.mutability = .immutable → s.isComplex = false →
    s.isAssigned (old.valueOf s.name) = true → HasValue out s.name (old.valueOf s.name)

/-- Nothing is dropped in a value that is not complex. -/
theorem Retains.eq_of_simple (h : Retains loose a v w) (hsimple : a.isComplex = false) : w = v := by
  induction h with
  | refl => rfl
  | object ha =>
      rw [ha.complex] at hsimple
      cases hsimple
  | @array _ _ items kept _ _ hlength _ hitems =>
      refine congrArg Json.array (List.ext_getElem? fun i => ?_)
      cases hv : items[i]? with
      | none => rw [List.getElem?_eq_none_iff, hlength, ← List.getElem?_eq_none_iff, hv]
      | some v =>
          obtain ⟨hi, _⟩ := List.getElem?_eq_some_iff.mp hv
          have hw : kept[i]? = some kept[i] := List.getElem?_eq_getElem (hlength ▸ hi)
          rw [hw, hitems i v kept[i] hv hw hsimple]
  | again _ _ ih ih' => exact (ih' hsimple).trans (ih hsimple)

theorem named?_of_hasValue_null (h : HasValue members name .null) : members.named? name = none := h

theorem hasValue_of_named? (hfull : v.isNull = false) (hw : members.named? name = some w)
    (hbeq : (w == v) = true) : HasValue members name v := by
  rw [HasValue, hfull, if_neg Bool.false_ne_true]
  exact ⟨w, hw, hbeq⟩

/-- The stored value of a sub-attribute, `null` if there is none. -/
def storedValue (reference : Option Members) (name : String) : Json :=
  (reference.bind fun r => r.named? name).getD .null

/-- The walk through an object gives a read-only sub-attribute its stored value. -/
theorem hasValue_of_readOnly (hsound : a.Sound) (hs : s ∈ a.subAttributes)
    (hro : s.mutability = .readOnly) (hkeys : sent.DistinctKeys)
    (hwalk : mutabilityEditor.walkAll ancestors reference sent a.subAttributes =
      pure ⟨out, .ok ()⟩) :
    HasValue out s.name (storedValue reference s.name) := by
  obtain ⟨w, hvisit, hout⟩ := Walk.Editor.walkAll_named? hwalk hsound.distinct hs hkeys
  have hbeq : (w == storedValue reference s.name) = true := by
    have hw : w = if sent.valueOf s.name == storedValue reference s.name then sent.valueOf s.name
        else storedValue reference s.name :=
      (congrArg Walk.Edited.value ((visitAttribute_readOnly hro).symm.trans hvisit)).symm
    rw [hw]
    split
    · assumption
    · exact Json.beq_refl _
  rw [HasValue, hout, Json.isNull_eq_of_beq hbeq]
  split
  · rfl
  · exact ⟨w, rfl, hbeq⟩

/-- The walk through an object beside its stored version restores it. -/
theorem restores_of_walkAll (hsound : a.Sound) (hkeys : sent.DistinctKeys)
    (hwalk : mutabilityEditor.walkAll ancestors (some old) sent a.subAttributes =
      pure ⟨out, .ok ()⟩) : Restores a old out := by
  have himmutable : ∀ s ∈ a.subAttributes, s.mutability = .immutable → ∀ y,
      old.named? s.name = some y → s.isAssigned y = true → KeepsAt s [s] y (.object out) := by
    intro s hs him y hy hassigned
    refine keepsAt_of_walkAll hsound hs hwalk hassigned fun w hvisit => ?_
    exact keepsAt_of_immutable (hsound.sub hs) him .here hvisit hy rfl hassigned
  refine ⟨fun s hs hro => hasValue_of_readOnly hsound hs hro hkeys hwalk, himmutable, ?_⟩
  intro s hs him hsimple hassigned
  have hfull : (old.valueOf s.name).isNull = false := isNull_of_isAssigned hassigned
  obtain ⟨y, hy⟩ : ∃ y, old.named? s.name = some y := by
    cases hnamed : old.named? s.name with
    | some y => exact ⟨y, rfl⟩
    | none =>
        rw [Members.valueOf, hnamed] at hfull
        cases hfull
  rw [Members.valueOf_of_named? hy] at hfull hassigned ⊢
  obtain ⟨x, z, hz, hbeq, hretains⟩ := himmutable s hs him y hy hassigned
  obtain ⟨_, u, hout, hu, hz⟩ := exists_of_valueAt hz
  cases hout
  cases hz
  exact hasValue_of_named? hfull hu (hretains.eq_of_simple hsimple ▸ hbeq)

/-- The walk through an object keeps a value that is not complex. -/
theorem valueOf_of_walkAll (hsound : a.Sound) (hs : s ∈ a.subAttributes)
    (hset : s.mutability ≠ .readOnly) (hsimple : s.isComplex = false) (hkeys : sent.DistinctKeys)
    (hwalk : mutabilityEditor.walkAll ancestors reference sent a.subAttributes =
      pure ⟨out, .ok ()⟩) :
    out.valueOf s.name = sent.valueOf s.name := by
  obtain ⟨w, hvisit, hout⟩ := Walk.Editor.walkAll_named? hwalk hsound.distinct hs hkeys
  have hretains : Retains true s (sent.valueOf s.name) w :=
    visitAttribute_retains (hsound.sub hs) hset (.inl rfl) hvisit
  rw [← hretains.eq_of_simple hsimple, Members.valueOf, hout]
  split
  case isTrue hnull => exact (eq_null_of_isNull hnull).symm
  case isFalse => rfl

/-! ## Stored versions -/

/-- Stored elements that have different values of the key, none of them `null`. -/
structure KeyedApart (k : Attribute) (olds : List Members) : Prop where
  full : ∀ old ∈ olds, (old.valueOf k.name).isNull = false
  differ : olds.Pairwise fun m n => (m.valueOf k.name == n.valueOf k.name) = false

/-- Objects are paired if they have the same value of the key. -/
theorem pairsByKey_object (hkey : a.indexKey = some key) (hk : Text.alike k.name key = true)
    (hsent : sent.DistinctKeys) (hold : old.DistinctKeys)
    (hfull : (old.valueOf k.name).isNull = false) :
    pairsByKey a (.object sent) (.object old) = (sent.valueOf k.name == old.valueOf k.name) := by
  simp only [pairsByKey, hkey, ← hsent.named?_congr hk, ← hold.named?_congr hk]
  cases hw : old.named? k.name with
  | none =>
      rw [Members.valueOf, hw] at hfull
      cases hfull
  | some w =>
      rw [Members.valueOf_of_named? hw] at hfull ⊢
      cases hv : sent.named? k.name with
      | none =>
          rw [Members.valueOf, hv]
          cases w <;> first | rfl | cases hfull
      | some v =>
          rw [Members.valueOf_of_named? hv]
          cases hbeq : v == w with
          | false => simp [hbeq]
          | true => simp [hbeq, Json.isNull_eq_of_beq hbeq, hfull]

/-- At most one stored element has a value of the key. -/
theorem KeyedApart.filter_eq (h : KeyedApart k olds) (hold : old ∈ olds)
    (hbeq : (v == old.valueOf k.name) = true) :
    (olds.filter fun m => v == m.valueOf k.name) = [old] := by
  have hdiffer := h.differ
  clear h
  have hother : ∀ m n : Members, (m.valueOf k.name == n.valueOf k.name) = false →
      (v == n.valueOf k.name) = true → (v == m.valueOf k.name) = false := by
    intro m n hne hn
    rw [Json.beq_comm, Json.beq_congr hn, hne]
  induction olds with
  | nil => cases hold
  | cons m rest ih =>
      obtain ⟨hm, hrest⟩ := List.pairwise_cons.mp hdiffer
      rcases List.mem_cons.mp hold with rfl | hold
      · have hnone : (rest.filter fun m => v == m.valueOf k.name) = [] := by
          refine List.filter_eq_nil_iff.mpr fun n hn => ?_
          rw [hother n old (by rw [Json.beq_comm, hm n hn]) hbeq]
          exact Bool.false_ne_true
        rw [List.filter_cons, if_pos hbeq, hnone]
      · have hskip : (v == m.valueOf k.name) = false := hother m old (hm old hold) hbeq
        rw [List.filter_cons, if_neg (by simp [hskip]), ih hold hrest]

/-- The partners of an object are the stored ones with its value of the key. -/
theorem partners_object (hcomplex : a.isComplex = true) (hkey : a.indexKey = some key)
    (hk : Text.alike k.name key = true) (htold : KeyedApart k olds) (hsent : sent.DistinctKeys)
    (holds : ∀ old ∈ olds, old.DistinctKeys) :
    mutabilityEditor.partners a (some (.array (olds.map Json.object))) (.object sent) =
      (olds.filter fun old => sent.valueOf k.name == old.valueOf k.name).map Json.object := by
  have hpairs : ∀ old ∈ olds, pairsByKey a (.object sent) (.object old) =
      (sent.valueOf k.name == old.valueOf k.name) := fun old hold =>
    pairsByKey_object hkey hk hsent (holds old hold) (htold.full old hold)
  rw [← List.filter_congr hpairs, Walk.Editor.partners, if_pos hcomplex]
  exact List.filter_map

/-- What is not an object has no partners. -/
theorem partners_of_not_object {stored : Option Json} (h : ∀ sent : Members, v ≠ .object sent) :
    mutabilityEditor.partners a stored v = [] := by
  have hpairs : ∀ p : Json, pairsByKey a v p = false := by
    intro p
    cases v with
    | object sent => exact absurd rfl (h sent)
    | _ => unfold pairsByKey; cases a.indexKey <;> rfl
  unfold Walk.Editor.partners
  split
  · exact List.filter_eq_nil_iff.mpr fun p _ => by simp [mutabilityEditor, hpairs p]
  · rfl

/-! ## Visits of elements -/

variable {inner : Walk.Editor.Inner Id Error} {visit whole : Walk.Visit (Option Json)}
  {position : Nat}

/-- The visit of an element that comes out as an object walks through the object. -/
theorem inner_of_visitElement (ha : Opens visit.descriptor)
    (h : mutabilityEditor.visitElement inner visit v = pure ⟨.object out, .ok ()⟩) :
    ∃ sent, v = .object sent ∧
      inner visit.below (visit.content.bind Json.object?) sent = pure ⟨out, .ok ()⟩ := by
  cases v with
  | object sent =>
      obtain ⟨_, hkept, hinner⟩ := object_of_visitElement ha h
      cases hkept
      exact ⟨sent, rfl, hinner⟩
  | _ =>
      rw [Walk.Editor.visitElement] at h
      rcases visitMutability_settable visit ha.settable _ with hvisit | ⟨cause, hvisit⟩
      · rw [hvisit, pure_bind] at h
        cases h
      · rw [hvisit] at h
        cases h

/-- An element with at most one partner is visited once. -/
theorem inner_of_visitPaired (found : Option Members) (ha : Opens whole.descriptor.element)
    (hfound : mutabilityEditor.partners whole.descriptor whole.content v =
      found.toList.map Json.object)
    (h : mutabilityEditor.visitPaired inner whole position v = ⟨.object out, .ok ()⟩) :
    ∃ (sent : Members) (below : List (Walk.Frame (Option Json))), v = .object sent ∧
      inner below found sent = pure ⟨out, .ok ()⟩ := by
  rw [Walk.Editor.visitPaired, hfound] at h
  cases found with
  | none =>
      obtain ⟨sent, rfl, hinner⟩ := inner_of_visitElement ha h
      exact ⟨sent, _, rfl, hinner⟩
  | some old =>
      obtain ⟨u, hu, hrest⟩ := Walk.Editor.visitBeside_cons_eq_ok h
      cases hrest
      obtain ⟨sent, rfl, hinner⟩ := inner_of_visitElement ha hu
      exact ⟨sent, _, rfl, hinner⟩

/-! ## Arrays -/

/-- An element that comes out as an object has been sent as one.  It has what the walk beside its
stored version makes of it, or what the walk beside nothing does. -/
theorem pairs_of_visitPaired (hsound : a.Sound) (hset : a.mutability ≠ .readOnly)
    (hcomplex : a.isComplex = true) (hkey : a.indexKey = some key) (hk : a.sub? key = some k)
    (hksettable : k.mutability ≠ .readOnly) (htold : KeyedApart k olds)
    (holds : ∀ old ∈ olds, old.DistinctKeys)
    (hkeys : ∀ sent : Members, v = .object sent → sent.DistinctKeys)
    (hvisit : mutabilityEditor.visitPaired
      (fun ancestors reference members =>
        mutabilityEditor.walkAll ancestors reference members a.subAttributes)
      ⟨a, some (.array (olds.map Json.object)), ancestors, none⟩ position v =
        ⟨.object out, .ok ()⟩) :
    ∃ sent : Members, v = .object sent ∧
      (k.isComplex = false → out.valueOf k.name = sent.valueOf k.name) ∧
      (∀ old ∈ olds, (sent.valueOf k.name == old.valueOf k.name) = true → Restores a old out) ∧
      ((∀ old ∈ olds, (sent.valueOf k.name == old.valueOf k.name) = false) →
        ∀ s ∈ a.subAttributes, s.mutability = .readOnly → out.named? s.name = none) := by
  obtain ⟨hkmem, halike⟩ := Attribute.mem_of_sub? hk
  have hopens : Opens a.element := by
    rw [hsound.element_eq]
    exact ⟨hset, rfl, hcomplex⟩
  obtain ⟨sent, rfl⟩ : ∃ sent : Members, v = .object sent := by
    by_contra hother
    obtain ⟨sent, _, hv, _⟩ := inner_of_visitPaired none hopens
      (partners_of_not_object fun sent hv => hother ⟨sent, hv⟩) hvisit
    exact hother ⟨sent, hv⟩
  have hsent := hkeys sent rfl
  have hpartners := partners_object hcomplex hkey halike htold hsent holds
  have hkeeps : ∀ {found : Option Members} {below : List (Walk.Frame (Option Json))},
      mutabilityEditor.walkAll below found sent a.subAttributes = pure ⟨out, .ok ()⟩ →
      k.isComplex = false → out.valueOf k.name = sent.valueOf k.name := fun hwalk hsimple =>
    valueOf_of_walkAll hsound hkmem hksettable hsimple hsent hwalk
  refine ⟨sent, rfl, ?_⟩
  by_cases hstored : ∃ old ∈ olds, (sent.valueOf k.name == old.valueOf k.name) = true
  · obtain ⟨old, hold, hbeq⟩ := hstored
    rw [htold.filter_eq hold hbeq] at hpartners
    obtain ⟨_, below, hobject, hwalk⟩ :=
      inner_of_visitPaired (some old) hopens hpartners hvisit
    cases hobject
    refine ⟨hkeeps hwalk, fun old' hold' hbeq' => ?_, fun hdiffer => ?_⟩
    · have hsame : [old] = [old'] :=
        (htold.filter_eq hold hbeq).symm.trans (htold.filter_eq hold' hbeq')
      cases hsame
      exact restores_of_walkAll hsound hsent hwalk
    · rw [hdiffer old hold] at hbeq
      cases hbeq
  · have hdiffer : ∀ old ∈ olds, (sent.valueOf k.name == old.valueOf k.name) = false :=
      fun old hold => Bool.eq_false_iff.mpr fun hbeq => hstored ⟨old, hold, hbeq⟩
    have hempty : (olds.filter fun old => sent.valueOf k.name == old.valueOf k.name) = [] :=
      List.filter_eq_nil_iff.mpr fun old hold => by simp [hdiffer old hold]
    rw [hempty] at hpartners
    obtain ⟨_, below, hobject, hwalk⟩ := inner_of_visitPaired none hopens hpartners hvisit
    cases hobject
    refine ⟨hkeeps hwalk, fun old hold hbeq => ?_, fun _ s hs hro => ?_⟩
    · rw [hdiffer old hold] at hbeq
      cases hbeq
    · exact named?_of_hasValue_null (hasValue_of_readOnly hsound hs hro hsent hwalk)

/-- If the enforcement succeeds beside a stored array whose elements the key tells apart, then an
element of the resulting array is restored to the stored one with the value of the key that has been
sent.  If there is none then nothing read-only is left in it. -/
theorem enforceMutability_pairs {schema : Schema} (hschema : schema.Accepted)
    {stored r kept : Resource} (h : enforceMutability schema (some stored) r = ⟨kept, .ok ()⟩) :
    ∀ (a k : Attribute) (key : String) (olds : List Members) (items : List Json),
      a ∈ schema.attributes → a.mutability ≠ .readOnly → a.multiValued = true →
      a.isComplex = true → a.indexKey = some key → a.sub? key = some k →
      k.mutability ≠ .readOnly → stored.get? a.name = some (.array (olds.map Json.object)) →
      KeyedApart k olds → (∀ old ∈ olds, old.DistinctKeys) →
      r.get? a.name = some (.array items) →
      (∀ sent : Members, .object sent ∈ items → sent.DistinctKeys) →
      ∃ outs, kept.get? a.name = some (.array outs) ∧ outs.length = items.length ∧
        ∀ (i : Nat) (out : Members), outs[i]? = some (.object out) →
          ∃ sent : Members, items[i]? = some (.object sent) ∧
            (k.isComplex = false → out.valueOf k.name = sent.valueOf k.name) ∧
            (∀ old ∈ olds, (sent.valueOf k.name == old.valueOf k.name) = true →
              Restores a old out) ∧
            ((∀ old ∈ olds, (sent.valueOf k.name == old.valueOf k.name) = false) →
              ∀ s ∈ a.subAttributes, s.mutability = .readOnly → out.named? s.name = none) := by
  intro a k key olds items ha hset hmulti hcomplex hkey hk hksettable hstored htold holds hitems
    hkeys
  have hsound : a.Sound := hschema.sound.sub ha
  obtain ⟨before, w, _, hvisit, hkept⟩ :=
    Walk.Editor.walkAll_visits (walkAll_of_enforceMutability h) hschema.sound.distinct ha
  rw [Members.valueOf_of_named? hitems] at hvisit
  obtain ⟨outs, rfl, hvisits⟩ := elements_of_visitAttribute hset hmulti hvisit
  obtain ⟨hlength, heach⟩ := Walk.Editor.visitElements_each hvisits
  have houts : kept.get? a.name = some (.array outs) := by
    rw [Resource.get?, Members.named?_congr hkept, Walk.Editor.named?_store rfl]
  refine ⟨outs, houts, hlength, fun i out hout => ?_⟩
  obtain ⟨hi, _⟩ := List.getElem?_eq_some_iff.mp hout
  have hv : items[i]? = some items[i] := List.getElem?_eq_getElem (hlength ▸ hi)
  have hpaired := heach i _ _ hv hout
  have hcounterpart : ((some stored).map (·.members)).bind (fun r => r.named? a.name) =
      some (.array (olds.map Json.object)) := hstored
  rw [hcounterpart] at hpaired
  obtain ⟨sent, hsent, hpairs⟩ := pairs_of_visitPaired hsound hset hcomplex hkey hk hksettable htold
    holds (fun sent hsent => hkeys sent (hsent ▸ List.getElem_mem _)) hpaired
  exact ⟨sent, hsent ▸ hv, hpairs⟩

/-- A member of a group gets back the name that is stored for it.  One that is not stored loses the
name that the client has sent. -/
theorem enforceMutability_pairs_group :
    let old : Members :=
      [("display", .string "Alice"), ("type", .string "User"), ("value", .string "u1")]
    let items : List Json := [.object [("display", .string "Bob"), ("value", .string "u2")],
      .object [("display", .string "Mallory"), ("type", .string "User"), ("value", .string "u1")]]
    let stored : Resource :=
      ⟨[("displayName", .string "Admins"), ("members", .array [.object old])]⟩
    let r : Resource := ⟨[("displayName", .string "Admins"), ("members", .array items)]⟩
    ∃ a k kept, Schema.group.Accepted ∧ a ∈ Schema.group.attributes ∧ a.name = "members" ∧
      a.mutability ≠ .readOnly ∧ a.multiValued = true ∧ a.isComplex = true ∧
      a.indexKey = some "value" ∧ a.sub? "value" = some k ∧ k.mutability ≠ .readOnly ∧
      stored.get? a.name = some (.array ([old].map Json.object)) ∧ KeyedApart k [old] ∧
      (∀ old' ∈ [old], old'.DistinctKeys) ∧ r.get? a.name = some (.array items) ∧
      (∀ sent : Members, .object sent ∈ items → sent.DistinctKeys) ∧
      enforceMutability Schema.group (some stored) r = ⟨kept, .ok ()⟩ ∧
      ∃ outs, kept.get? a.name = some (.array outs) ∧ outs.length = items.length ∧
        ∀ (i : Nat) (out : Members), outs[i]? = some (.object out) →
          ∃ sent : Members, items[i]? = some (.object sent) ∧
            (k.isComplex = false → out.valueOf k.name = sent.valueOf k.name) ∧
            (∀ old' ∈ [old], (sent.valueOf k.name == old'.valueOf k.name) = true →
              Restores a old' out) ∧
            ((∀ old' ∈ [old], (sent.valueOf k.name == old'.valueOf k.name) = false) →
              ∀ s ∈ a.subAttributes, s.mutability = .readOnly → out.named? s.name = none) := by
  intro old items stored r
  obtain ⟨a, k, ha, hname, hset, hmulti, hcomplex, hkey, hk, hkname, hkset⟩ :
      ∃ a k, Schema.group.root.sub? "members" = some a ∧ a.name = "members" ∧
      a.mutability ≠ .readOnly ∧ a.multiValued = true ∧ a.isComplex = true ∧
      a.indexKey = some "value" ∧ a.sub? "value" = some k ∧ k.name = "value" ∧
      k.mutability ≠ .readOnly :=
    ⟨_, _, rfl, rfl, by decide, rfl, rfl, rfl, rfl, rfl, by decide⟩
  obtain ⟨kept, hkept⟩ :
      ∃ kept, enforceMutability Schema.group (some stored) r = ⟨kept, .ok ()⟩ := by
    have hresult : (enforceMutability Schema.group (some stored) r).result = .ok () := by
      dsimp only [stored, r, old, items]
      decide +kernel
    exact ⟨_, by rw [← hresult]⟩
  obtain ⟨hmem, _⟩ := Attribute.mem_of_sub? ha
  have hgroup : Schema.group.Accepted := .built Schema.build_group
  have hstored : stored.get? a.name = some (.array ([old].map Json.object)) := by
    rw [hname]
    rfl
  have hitems : r.get? a.name = some (.array items) := by
    rw [hname]
    rfl
  have htold : KeyedApart k [old] := by
    refine ⟨fun m hm => ?_, List.pairwise_singleton ..⟩
    rw [List.mem_singleton.mp hm, hkname]
    rfl
  have hold : ∀ old' ∈ [old], old'.DistinctKeys := by
    intro m hm
    rw [List.mem_singleton.mp hm]
    decide
  have hsent : ∀ sent : Members, .object sent ∈ items → sent.DistinctKeys := by
    intro sent hsent
    simp only [items, List.mem_cons, Json.object.injEq, List.not_mem_nil, or_false] at hsent
    rcases hsent with rfl | rfl <;> decide
  exact ⟨a, k, kept, hgroup, hmem, hname, hset, hmulti, hcomplex, hkey, hk, hkset, hstored, htold,
    hold, hitems, hsent, hkept, enforceMutability_pairs hgroup hkept a k "value" [old] items hmem
      hset hmulti hcomplex hkey hk hkset hstored htold hold hitems hsent⟩

/-- An array that is sent as it is stored loses a `null` inside the key of its element, so the
element has its serial number and yet the key of no stored one.  In the immutable crest of the
element a `null` is dropped, and the marks that are not told apart are mixed up. -/
theorem enforceMutability_changes_key :
    let marks : Attribute :=
      { name := "marks", type := .complex, multiValued := true,
        subAttributes := [{ name := "origin", mutability := .readOnly }, { name := "value" }] }
    let badges : Attribute :=
      { name := "badges", type := .complex, multiValued := true, arrayIndexKey := some "tag",
        subAttributes := [
          { name := "tag", type := .complex,
            subAttributes := [{ name := "code" }, { name := "note" }] },
          { name := "serial", mutability := .readOnly },
          { name := "crest", type := .complex, mutability := .immutable,
            subAttributes := [{ name := "motto" }, { name := "note" }, marks] }] }
    let mark (origin : String) : Json :=
      .object [("origin", .string origin), ("value", .string "k")]
    let crest : Json := .object [("marks", .array [mark "o1", mark "o2",
      .object [("origin", .string "o3")]]), ("motto", .string "A"), ("note", .null)]
    let tag : Json := .object [("code", .string "k"), ("note", .null)]
    let old : Members := [("crest", crest), ("serial", .string "7"), ("tag", tag)]
    let r : Resource := ⟨[("badges", .array [.object old])]⟩
    ∃ schema a k c, Schema.build "urn:badges" "Badge" none [badges] = .ok schema ∧
      schema.root.sub? "badges" = some a ∧ a.mutability = .readWrite ∧ a.multiValued = true ∧
      a.isComplex = true ∧ a.indexKey = some "tag" ∧ a.sub? "tag" = some k ∧
      k.mutability = .readWrite ∧ a.sub? "crest" = some c ∧ c.mutability = .immutable ∧
      c.isAssigned crest = true ∧ (∃ s, a.sub? "serial" = some s ∧ s.mutability = .readOnly) ∧
      r.get? "badges" = some (.array [.object old]) ∧ Members.DistinctKeys old ∧
      tag.isNull = false ∧
      ∃ (kept : Resource) (out : Members), enforceMutability schema (some r) r = ⟨kept, .ok ()⟩ ∧
        kept.get? "badges" = some (.array [.object out]) ∧
        (out.valueOf "tag" == old.valueOf "tag") = false ∧
        out.named? "serial" = some (.string "7") ∧ (out.valueOf "crest" == crest) = false ∧
        out.named? "crest" = some (.object [
          ("marks", .array [mark "o2", mark "o2", .object []]), ("motto", .string "A")]) := by
  intro marks badges mark crest tag old r
  let schema := Schema.assemble "urn:badges" "Badge" none
    (Schema.withCommon [badges] Schema.commonAttributes)
  let out : Members := [("crest", .object [
      ("marks", .array [mark "o2", mark "o2", .object []]), ("motto", .string "A")]),
    ("serial", .string "7"), ("tag", .object [("code", .string "k")])]
  have hkept : enforceMutability schema (some r) r =
      ⟨⟨[("badges", .array [.object out])]⟩, .ok ()⟩ := by
    dsimp only [schema, r, out, old, tag, crest, mark, badges, marks]
    decide +kernel
  obtain ⟨a, k, c, ha, hset, hmulti, hcomplex, hkey, hk, hkset, hc, hcset, hcrest, hserial⟩ :
      ∃ a k c, schema.root.sub? "badges" = some a ∧ a.mutability = .readWrite ∧
      a.multiValued = true ∧ a.isComplex = true ∧ a.indexKey = some "tag" ∧
      a.sub? "tag" = some k ∧ k.mutability = .readWrite ∧ a.sub? "crest" = some c ∧
      c.mutability = .immutable ∧ c.isAssigned crest = true ∧
      ∃ s, a.sub? "serial" = some s ∧ s.mutability = .readOnly := by
    dsimp only [schema, crest, mark, badges, marks]
    exact ⟨_, _, _, rfl, rfl, rfl, rfl, rfl, rfl, rfl, rfl, rfl, rfl, _, rfl, rfl⟩
  have hbuild : Schema.build "urn:badges" "Badge" none [badges] = .ok schema :=
    Schema.build_eq (by decide +kernel) (by
      dsimp only [badges, marks]
      decide +kernel)
  have hdistinct : Members.DistinctKeys old := by
    dsimp only [old]
    decide
  have htag : (out.valueOf "tag" == old.valueOf "tag") = false := rfl
  have hlost : (out.valueOf "crest" == crest) = false := rfl
  exact ⟨schema, a, k, c, hbuild, ha, hset, hmulti, hcomplex, hkey, hk, hkset, hc, hcset, hcrest,
    hserial, rfl, hdistinct, rfl, _, out, hkept, rfl, htag, rfl, hlost, rfl⟩

end Scim.Validation
