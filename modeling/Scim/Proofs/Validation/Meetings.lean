import Scim.Proofs.Json.Footprint
import Scim.Proofs.Validation.Shedding
import Scim.Validation.Mutability

/-!
# What meets what beside a stored version

The enforcement of mutability walks a resource beside a stored version of it, and `Meets` says
which values it brings together.  A sub-attribute meets the stored value of the same name.  An
element of an array meets the elements with the same value of the index key, one after the other,
and it meets nothing if there are none.  A value that meets something again may have lost members
that were `null` in the meantime.

A value *accords* with its stored version (`Accords`) if all that meet below fit: read-only
attributes are equal to what is stored, and immutable ones are if something is stored.

An element is *consistent* with the others of its array (`Consistent`) if it accords with all that
it meets there.  This is more than an element needs in order to pass unchanged, since what it loses
beside one element may come back beside the next.
-/

namespace Scim.Validation

open Walk (pairsByKey)

/-- The elements of the stored version that an element meets. -/
abbrev partners (a : Attribute) (stored : Option Json) (v : Json) : List Json :=
  mutabilityEditor.partners a stored v

/-- Going down from the value `v` of `a` beside what is stored for it, the enforcement brings the
value `w` of `b` beside `found`.  The flag tells whether `v` has been there before. -/
inductive Meets :
    Bool → Attribute → Option Json → Json → Attribute → Option Json → Json → Prop where
  | self {again : Bool} {a : Attribute} {stored : Option Json} {v : Json} :
      Meets again a stored v a stored v
  | member {again : Bool} {a s b : Attribute} {stored found : Option Json} {members : Members}
      {w : Json} (ha : Opens a) (hs : s ∈ a.subAttributes)
      (h : Meets again s ((stored.bind Json.object?).bind fun r => Members.named? r s.name)
        (members.valueOf s.name) b found w) :
      Meets again a stored (.object members) b found w
  /-- An element that no stored one is paired with. -/
  | alone {again : Bool} {a b : Attribute} {stored found : Option Json} {items : List Json}
      {v w : Json} (hset : a.mutability ≠ .readOnly) (hmulti : a.multiValued = true)
      (hv : v ∈ items) (hnone : partners a stored v = [])
      (h : Meets again a.singleValued none v b found w) :
      Meets again a stored (.array items) b found w
  /-- An element and the first one that it is paired with. -/
  | first {again : Bool} {a b : Attribute} {stored found : Option Json} {items rest : List Json}
      {v w p : Json} (hset : a.mutability ≠ .readOnly) (hmulti : a.multiValued = true)
      (hv : v ∈ items) (hpartners : partners a stored v = p :: rest)
      (h : Meets again a.singleValued (some p) v b found w) :
      Meets again a stored (.array items) b found w
  /-- An element and another one that it is paired with. -/
  | later {again : Bool} {a b : Attribute} {stored found : Option Json} {items rest : List Json}
      {v w p q : Json} (hset : a.mutability ≠ .readOnly) (hmulti : a.multiValued = true)
      (hv : v ∈ items) (hpartners : partners a stored v = p :: rest) (hq : q ∈ rest)
      (h : Meets true a.singleValued (some q) v b found w) :
      Meets again a stored (.array items) b found w
  /-- What is left of a value that has been there before. -/
  | shed {a b : Attribute} {stored found : Option Json} {u v w : Json} (hv : Sheds a u v)
      (h : Meets true a stored v b found w) : Meets true a stored u b found w

/-- The value `v` of an attribute is what mutability demands beside what is stored for it. -/
structure Fits (a : Attribute) (stored : Option Json) (v : Json) : Prop where
  /-- A read-only attribute has the value that is stored. -/
  readOnly : a.mutability = .readOnly → (v == stored.getD .null) = true
  /-- An immutable attribute has the value that is stored, if there is something in it. -/
  immutable : a.mutability = .immutable → ∀ p ∈ stored, a.isAssigned p = true → (v == p) = true

instance (a : Attribute) (stored : Option Json) (v : Json) : Decidable (Fits a stored v) :=
  decidable_of_iff ((a.mutability = .readOnly → (v == stored.getD .null) = true) ∧
      (a.mutability = .immutable → ∀ p ∈ stored, a.isAssigned p = true → (v == p) = true))
    ⟨fun h => ⟨h.1, h.2⟩, fun h => ⟨h.readOnly, h.immutable⟩⟩

/-- All that meets below a value fits. -/
def Accords (again : Bool) (a : Attribute) (stored : Option Json) (v : Json) : Prop :=
  ∀ (b : Attribute) (found : Option Json) (w : Json), Meets again a stored v b found w →
    Fits b found w

/-- No read-only attribute that a walk comes to has a value. -/
def HoldsNoReadOnly (a : Attribute) (v : Json) : Prop :=
  ∀ (b : Attribute) (w : Json), Reaches a v b w → b.mutability = .readOnly → w = .null

/-- An element of an array goes together with the elements that it meets there. -/
structure Consistent (a : Attribute) (items : List Json) (v : Json) : Prop where
  /-- An element that meets nothing has no value that only the server sets. -/
  alone : partners a (some (.array items)) v = [] → HoldsNoReadOnly a.singleValued v
  /-- It accords with the first one that it meets. -/
  first : ∀ (p : Json) (rest : List Json), partners a (some (.array items)) v = p :: rest →
    Accords false a.singleValued (some p) v
  /-- It accords with the others also if it has lost members that were `null`. -/
  later : ∀ (p : Json) (rest : List Json), partners a (some (.array items)) v = p :: rest →
    ∀ q ∈ rest, Accords true a.singleValued (some q) v

variable {again : Bool} {a b s : Attribute} {stored found : Option Json} {v w p q : Json}
  {members : Members} {items rest : List Json}

/-! ## Partners -/

theorem mem_partners :
    p ∈ partners a stored v ↔
      a.isComplex = true ∧ p ∈ (stored.bind Json.array?).getD [] ∧ pairsByKey a v p = true := by
  unfold partners Walk.Editor.partners
  split
  case isTrue hcomplex => simp [hcomplex, mutabilityEditor]
  case isFalse hcomplex => simp [hcomplex]

theorem partners_none (a : Attribute) (v : Json) : partners a none v = [] := by
  unfold partners Walk.Editor.partners
  split <;> rfl

theorem partners_of_simple (h : a.isComplex = false) : partners a stored v = [] := by
  rw [partners, Walk.Editor.partners, h, if_neg Bool.false_ne_true]

/-- Only elements with a value of the index key meet others. -/
theorem exists_object_of_pairsByKey (h : pairsByKey a v p = true) :
    ∃ members others, v = .object members ∧ p = .object others := by
  unfold pairsByKey at h
  split at h
  case h_1 => exact ⟨_, _, rfl, rfl⟩
  case h_2 => cases h

/-! ## Fitting -/

/-- What a client may set fits beside anything. -/
theorem fits_of_free (h : a.mutability = .readWrite) : Fits a stored v := by
  constructor
  · intro hro
    cases h.symm.trans hro
  · intro him
    cases h.symm.trans him

theorem fits_self (hstored : stored.getD .null = v) : Fits a stored v := by
  subst hstored
  refine ⟨fun _ => Json.beq_refl _, ?_⟩
  rintro _ p rfl _
  exact Json.beq_refl p

/-! ## Accordance goes down -/

namespace Accords

theorem member (h : Accords again a stored (.object members)) (ha : Opens a)
    (hs : s ∈ a.subAttributes) :
    Accords again s ((stored.bind Json.object?).bind fun r => Members.named? r s.name)
      (members.valueOf s.name) :=
  fun b found w hmeets => h b found w (.member ha hs hmeets)

theorem alone (h : Accords again a stored (.array items)) (hset : a.mutability ≠ .readOnly)
    (hmulti : a.multiValued = true) (hv : v ∈ items) (hnone : partners a stored v = []) :
    Accords again a.singleValued none v :=
  fun b found w hmeets => h b found w (.alone hset hmulti hv hnone hmeets)

theorem first (h : Accords again a stored (.array items)) (hset : a.mutability ≠ .readOnly)
    (hmulti : a.multiValued = true) (hv : v ∈ items) (hpartners : partners a stored v = p :: rest) :
    Accords again a.singleValued (some p) v :=
  fun b found w hmeets => h b found w (.first hset hmulti hv hpartners hmeets)

theorem later (h : Accords again a stored (.array items)) (hset : a.mutability ≠ .readOnly)
    (hmulti : a.multiValued = true) (hv : v ∈ items) (hpartners : partners a stored v = p :: rest)
    (hq : q ∈ rest) : Accords true a.singleValued (some q) v :=
  fun b found w hmeets => h b found w (.later hset hmulti hv hpartners hq hmeets)

theorem shed (h : Accords true a stored v) (hv : Sheds a v w) : Accords true a stored w :=
  fun b found u hmeets => h b found u (.shed hv hmeets)

end Accords

/-! ## Beside nothing -/

/-- What meets nothing meets nothing below either. -/
theorem Meets.beside_nothing (h : Meets again a stored v b found w) (hagain : again = false)
    (hstored : stored = none) : found = none ∧ Reaches a v b w := by
  induction h with
  | self => exact ⟨hstored, .self⟩
  | member ha hs _ ih =>
      subst hstored
      obtain ⟨hfound, hreach⟩ := ih hagain rfl
      exact ⟨hfound, .member ha hs hreach⟩
  | alone hset hmulti hv _ _ ih =>
      obtain ⟨hfound, hreach⟩ := ih hagain rfl
      exact ⟨hfound, .item hset hmulti hv hreach⟩
  | first _ _ _ hpartners _ _ =>
      rw [hstored, partners_none] at hpartners
      cases hpartners
  | later _ _ _ hpartners _ _ _ =>
      rw [hstored, partners_none] at hpartners
      cases hpartners
  | shed _ _ _ => cases hagain

theorem HoldsNoReadOnly.accords (h : HoldsNoReadOnly a v) : Accords false a none v := by
  intro b found w hmeets
  obtain ⟨rfl, hreach⟩ := hmeets.beside_nothing rfl rfl
  refine ⟨fun hro => ?_, nofun⟩
  rw [h b w hreach hro]
  rfl

/-- A walk does not go below the elements of an attribute that is not complex. -/
theorem holdsNoReadOnly_of_simple (hset : a.mutability ≠ .readOnly) (h : a.isComplex = false) :
    HoldsNoReadOnly a.singleValued v := by
  intro b w hreach hro
  cases hreach with
  | self => exact absurd hro hset
  | member ha _ _ => exact (ha.not_simple h).elim
  | item _ hmulti _ _ => cases hmulti

/-- An element that meets nothing is consistent if it has no value that only the server sets. -/
theorem consistent_of_alone (hnone : partners a (some (.array items)) v = [])
    (h : HoldsNoReadOnly a.singleValued v) : Consistent a items v := by
  refine ⟨fun _ => h, fun p rest hpartners => ?_, fun p rest hpartners => ?_⟩
  · rw [hnone] at hpartners
    cases hpartners
  · rw [hnone] at hpartners
    cases hpartners

/-! ## Elements of simple sub-attributes -/

/-- Nothing is below a single-valued attribute that is not complex. -/
theorem Meets.eq_of_simple (h : Meets again a stored v b found w) (hcomplex : a.isComplex = false)
    (hsingle : a.multiValued = false) : b = a ∧ found = stored ∧ w = v := by
  induction h with
  | self => exact ⟨rfl, rfl, rfl⟩
  | member ha _ _ _ => exact (ha.not_simple hcomplex).elim
  | alone _ hmulti _ _ _ _ => exact absurd (hmulti.symm.trans hsingle) Bool.true_eq_false.mp
  | first _ hmulti _ _ _ _ => exact absurd (hmulti.symm.trans hsingle) Bool.true_eq_false.mp
  | later _ hmulti _ _ _ _ _ => exact absurd (hmulti.symm.trans hsingle) Bool.true_eq_false.mp
  | shed hv _ ih =>
      cases hv.eq_of_simple hcomplex hsingle
      exact ih hcomplex hsingle

/-- An element with one spelling of each name accords with another one, also when it is visited
again, if each of its sub-attributes has nothing below it and fits. -/
theorem accords_of_simple {others : Members} (hfree : a.mutability = .readWrite)
    (hsubs : ∀ s ∈ a.subAttributes, s.isComplex = false ∧ s.multiValued = false)
    (hordered : members.InOrder) (hkeys : members.DistinctKeys)
    (hfits : ∀ s ∈ a.subAttributes, Fits s (others.named? s.name) (members.valueOf s.name)) :
    Accords again a (some (.object others)) (.object members) := by
  intro b found w hmeets
  generalize hv : Json.object members = v at hmeets
  generalize hstored : some (Json.object others) = stored at hmeets
  induction hmeets generalizing members with
  | self => exact fits_of_free hfree
  | member _ hs hmeets _ =>
      cases hv
      cases hstored
      obtain ⟨hcomplex, hsingle⟩ := hsubs _ hs
      obtain ⟨rfl, rfl, rfl⟩ := hmeets.eq_of_simple hcomplex hsingle
      exact hfits _ hs
  | alone _ _ _ _ _ _ => cases hv
  | first _ _ _ _ _ _ => cases hv
  | later _ _ _ _ _ _ _ => cases hv
  | shed hsheds _ ih =>
      obtain ⟨kept, hkept, hordered', hkeys', hsame⟩ :=
        hsheds.valueOf_eq hsubs members hv.symm hordered hkeys
      exact ih hfree hsubs hordered' hkeys' (fun s hs => hsame s hs ▸ hfits s hs) hkept.symm hstored

/-- An element of simple sub-attributes is consistent if it fits beside all that it meets. -/
theorem consistent_of_simple (hfree : a.mutability = .readWrite)
    (hsubs : ∀ s ∈ a.subAttributes, s.isComplex = false ∧ s.multiValued = false)
    (hordered : members.InOrder) (hkeys : members.DistinctKeys)
    (hpaired : partners a (some (.array items)) (.object members) ≠ [])
    (hfits : ∀ others : Members,
      .object others ∈ partners a (some (.array items)) (.object members) →
      ∀ s ∈ a.subAttributes, Fits s (others.named? s.name) (members.valueOf s.name)) :
    Consistent a items (.object members) := by
  have hall : ∀ (again : Bool), ∀ p ∈ partners a (some (.array items)) (.object members),
      Accords again a.singleValued (some p) (.object members) := by
    intro again p hp
    obtain ⟨_, others, _, rfl⟩ := exists_object_of_pairsByKey (mem_partners.mp hp).2.2
    exact accords_of_simple hfree hsubs hordered hkeys (hfits others hp)
  refine ⟨fun hnone => absurd hnone hpaired, fun p rest hpartners => ?_,
    fun p rest hpartners q hq => ?_⟩
  · exact hall false p (hpartners ▸ List.mem_cons_self)
  · exact hall true q (hpartners ▸ List.mem_cons_of_mem p hq)

end Scim.Validation
