import Scim.Proofs.Json.Footprint
import Scim.Proofs.Schema.Soundness

/-!
# What a walk may drop

A walk that changes no value may still drop members that are `null`.  `Sheds a v w` says that `w`
is what is left of the value `v` of an attribute when some members have been dropped, each of
them described by the schema and `null`.  Nothing else may differ.

A walk that enforces mutability goes below the objects of single-valued complex attributes and
below the arrays of multi-valued ones, but never below a read-only attribute.  `Reaches` says
where it comes to.

* Something is left of every element of an array (`Sheds.array`) and of every described member of
  an object that is not `null` (`Sheds.slot`).
* A value in order stays as it is if the walk comes to no member that is `null`
  (`Sheds.eq_of_holdsNoNull`).
-/

namespace Scim.Validation

/-- Whether a walk goes below the objects of an attribute. -/
structure Opens (a : Attribute) : Prop where
  settable : a.mutability ≠ .readOnly
  single : a.multiValued = false
  complex : a.isComplex = true

theorem Opens.not_simple {a : Attribute} (ha : Opens a) (h : a.isComplex = false) : False := by
  rw [ha.complex] at h
  cases h

/-- A walk through a resource of an accepted schema goes below the root. -/
theorem opens_root {schema : Schema} (h : schema.Accepted) : Opens schema.root := by
  obtain ⟨hset, hcomplex, hsingle⟩ := h.root
  refine ⟨?_, hsingle, hcomplex⟩
  rw [hset]
  exact nofun

/-- Going down from the value `v` of `a`, a walk comes to the value `w` of `b`. -/
inductive Reaches : Attribute → Json → Attribute → Json → Prop where
  | self {a : Attribute} {v : Json} : Reaches a v a v
  | member {a s b : Attribute} {members : Members} {w : Json} (ha : Opens a)
      (hs : s ∈ a.subAttributes) (h : Reaches s (members.valueOf s.name) b w) :
      Reaches a (.object members) b w
  | item {a b : Attribute} {items : List Json} {v w : Json} (hset : a.mutability ≠ .readOnly)
      (hmulti : a.multiValued = true) (hv : v ∈ items) (h : Reaches a.singleValued v b w) :
      Reaches a (.array items) b w

/-- Nothing is below a single-valued attribute that is not complex. -/
theorem Reaches.eq_of_simple {a b : Attribute} {v w : Json} (h : Reaches a v b w)
    (hcomplex : a.isComplex = false) (hsingle : a.multiValued = false) : b = a ∧ w = v := by
  cases h with
  | self => exact ⟨rfl, rfl⟩
  | member ha _ _ => exact (ha.not_simple hcomplex).elim
  | item _ hmulti _ _ => exact absurd (hmulti.symm.trans hsingle) Bool.true_eq_false.mp

/-- The value `w` of an attribute is left of `v` when some described `null` members are dropped. -/
inductive Sheds : Attribute → Json → Json → Prop where
  | refl {a : Attribute} {v : Json} : Sheds a v v
  | trans {a : Attribute} {u v w : Json} (h : Sheds a u v) (h' : Sheds a v w) : Sheds a u w
  | drop {a s : Attribute} {members : Members} (ha : Opens a) (hs : s ∈ a.subAttributes)
      (h : members.named? s.name = some .null) :
      Sheds a (.object members) (.object (members.remove (members.slot s.name)))
  | member {a s : Attribute} {members : Members} {v w : Json} (ha : Opens a)
      (hs : s ∈ a.subAttributes) (h : members.named? s.name = some v) (hv : Sheds s v w) :
      Sheds a (.object members) (.object (members.put (members.slot s.name) w))
  | item {a : Attribute} {front back : List Json} {v w : Json}
      (hset : a.mutability ≠ .readOnly) (hmulti : a.multiValued = true)
      (hv : Sheds a.singleValued v w) :
      Sheds a (.array (front ++ v :: back)) (.array (front ++ w :: back))

variable {a s : Attribute} {members : Members} {items : List Json} {v w : Json}

/-- No member that a walk comes to is `null`. -/
def HoldsNoNull (a : Attribute) (v : Json) : Prop :=
  ∀ (b : Attribute) (members : Members), Reaches a v b (.object members) → Opens b →
    ∀ s ∈ b.subAttributes, members.named? s.name ≠ some .null

theorem eq_null_of_isNull (h : v.isNull = true) : v = .null := by
  cases v with
  | null => rfl
  | _ => cases h

/-- What is `null` by default and is not `null` is there. -/
theorem eq_some_of_getD {found : Option Json} (h : found.getD .null = v) (hfull : v ≠ .null) :
    found = some v := by
  cases found with
  | none => exact absurd h.symm hfull
  | some u => exact congrArg some h

namespace Sheds

/-- What is left of a value is `null` exactly if the value is. -/
theorem null_iff (h : Sheds a v w) : v = .null ↔ w = .null := by
  induction h with
  | refl => exact Iff.rfl
  | trans _ _ ih ih' => exact ih.trans ih'
  | drop _ _ _ => exact iff_of_false nofun nofun
  | member _ _ _ _ => exact iff_of_false nofun nofun
  | item _ _ _ => exact iff_of_false nofun nofun

/-- Nothing is below a single-valued attribute that is not complex. -/
theorem eq_of_simple (h : Sheds a v w) (hcomplex : a.isComplex = false)
    (hsingle : a.multiValued = false) : w = v := by
  induction h with
  | refl => rfl
  | trans _ _ ih ih' => rw [ih' hcomplex hsingle, ih hcomplex hsingle]
  | drop ha _ _ => exact (ha.not_simple hcomplex).elim
  | member ha _ _ _ => exact (ha.not_simple hcomplex).elim
  | item _ hmulti _ => exact absurd (hmulti.symm.trans hsingle) Bool.true_eq_false.mp

/-- What is left of an object with one spelling of each name has the same values, if no
sub-attribute has anything below it. -/
theorem valueOf_eq
    (hsubs : ∀ s ∈ a.subAttributes, s.isComplex = false ∧ s.multiValued = false)
    (h : Sheds a v w) : ∀ members : Members, v = .object members → members.InOrder →
    members.DistinctKeys → ∃ kept : Members, w = .object kept ∧ kept.InOrder ∧
      kept.DistinctKeys ∧ ∀ s ∈ a.subAttributes, kept.valueOf s.name = members.valueOf s.name := by
  induction h with
  | refl => exact fun members hv hordered hkeys => ⟨members, hv, hordered, hkeys, fun _ _ => rfl⟩
  | trans _ _ ih ih' =>
      intro members hv hordered hkeys
      obtain ⟨next, hnext, hordered, hkeys, hsame⟩ := ih hsubs members hv hordered hkeys
      obtain ⟨kept, hkept, hordered, hkeys, hsame'⟩ := ih' hsubs next hnext hordered hkeys
      exact ⟨kept, hkept, hordered, hkeys, fun s hs => (hsame' s hs).trans (hsame s hs)⟩
  | @drop a s members ha hs hnull =>
      intro _ hv hordered hkeys
      cases hv
      have hkeys' : (members.remove (members.slot s.name)).DistinctKeys := hkeys.filter _
      refine ⟨_, rfl, hordered.filter _, hkeys', fun t _ => ?_⟩
      cases halike : Text.alike s.name t.name with
      | true =>
          have hgone : (members.remove (members.slot s.name)).named? s.name = none :=
            Members.named?_eq_none_iff.mpr (hkeys.under_remove_slot s.name)
          rw [Members.valueOf, Members.valueOf, ← hkeys'.named?_congr halike, hgone,
            ← hkeys.named?_congr halike, hnull]
          rfl
      | false =>
          have hslot := Text.not_alike_of_alike (Members.alike_slot members s.name) halike
          rw [Members.valueOf, Members.named?_remove hslot, Members.valueOf]
  | @member a s members v w ha hs hnamed hsheds _ =>
      intro _ hv hordered hkeys
      cases hv
      obtain ⟨hcomplex, hsingle⟩ := hsubs s hs
      cases hsheds.eq_of_simple hcomplex hsingle
      have hget : members.get? (members.slot s.name) = some v := by
        rw [Members.get?_slot, hnamed]
      rw [Members.put_of_get? hordered hget]
      exact ⟨members, rfl, hordered, hkeys, fun _ _ => rfl⟩
  | item _ _ _ =>
      intro members hv
      cases hv

/-- Of an array something is left in every position. -/
theorem array (h : Sheds a (.array items) w) :
    ∃ kept : List Json, w = .array kept ∧ ∀ (i : Nat) (v : Json), items[i]? = some v →
      ∃ u, kept[i]? = some u ∧ Sheds a.singleValued v u := by
  generalize hv : Json.array items = v at h
  induction h generalizing items with
  | refl => exact ⟨items, hv.symm, fun i v hi => ⟨v, hi, .refl⟩⟩
  | trans _ _ ih ih' =>
      obtain ⟨next, hnext, hitems⟩ := ih hv
      obtain ⟨kept, hkept, hitems'⟩ := ih' hnext.symm
      refine ⟨kept, hkept, fun i v hi => ?_⟩
      obtain ⟨u, hu, hsheds⟩ := hitems i v hi
      obtain ⟨u', hu', hsheds'⟩ := hitems' i u hu
      exact ⟨u', hu', hsheds.trans hsheds'⟩
  | drop _ _ _ => cases hv
  | member _ _ _ _ => cases hv
  | @item a front back v w hset hmulti hsheds _ =>
      cases hv
      refine ⟨_, rfl, fun i x hi => ?_⟩
      rw [List.getElem?_append] at hi ⊢
      by_cases hfront : i < front.length
      · rw [if_pos hfront] at hi ⊢
        exact ⟨x, hi, .refl⟩
      · rw [if_neg hfront] at hi ⊢
        cases hposition : i - front.length with
        | zero =>
            rw [hposition] at hi
            cases hi
            exact ⟨w, rfl, hsheds⟩
        | succ n =>
            rw [hposition] at hi
            exact ⟨x, hi, .refl⟩

/-- Of an object every described member is left that is not `null`. -/
theorem slot {key : String} (h : Sheds a (.object members) w) (hsound : a.Sound)
    (hs : s ∈ a.subAttributes) (halike : Text.alike key s.name = true)
    (hv : members.get? key = some v) (hfull : v ≠ .null) :
    ∃ kept u, w = .object kept ∧ Members.get? kept key = some u ∧ Sheds s v u := by
  generalize hobject : Json.object members = x at h
  induction h generalizing members v with
  | refl => exact ⟨members, v, hobject.symm, hv, .refl⟩
  | trans _ _ ih ih' =>
      obtain ⟨next, u, hnext, hu, hsheds⟩ := ih hsound hs hv hfull hobject
      have hfull' : u ≠ .null := fun hnull => hfull (hsheds.null_iff.mpr hnull)
      obtain ⟨kept, u', hkept, hu', hsheds'⟩ := ih' hsound hs hu hfull' hnext.symm
      exact ⟨kept, u', hkept, hu', hsheds.trans hsheds'⟩
  | drop _ _ hnull =>
      cases hobject
      rw [← Members.get?_slot] at hnull
      refine ⟨_, v, rfl, ?_, .refl⟩
      rwa [Members.get?_remove_of_ne]
      rintro rfl
      rw [hv] at hnull
      exact hfull (Option.some.inj hnull)
  | @member a t members u w ha ht hu hsheds _ =>
      cases hobject
      by_cases hslot : key = members.slot t.name
      · subst hslot
        have hts : t = s := hsound.eq_of_alike ht hs
          (Text.alike_trans ((Text.alike_comm ..).trans (Members.alike_slot members t.name)) halike)
        subst hts
        rw [Members.get?_slot, hu] at hv
        cases hv
        exact ⟨_, w, rfl, Members.get?_put_self .., hsheds⟩
      · refine ⟨_, v, rfl, ?_, .refl⟩
        rwa [Members.get?_put_of_ne hslot]
  | item _ _ _ => cases hobject

/-- Where nothing is `null`, nothing is dropped. -/
theorem eq_of_holdsNoNull (h : Sheds a v w) (hfull : HoldsNoNull a v) (hordered : v.Ordered) :
    w = v := by
  induction h with
  | refl => rfl
  | trans _ _ ih ih' =>
      have hv := ih hfull hordered
      subst hv
      exact ih' hfull hordered
  | drop ha hs h => exact absurd h (hfull _ _ .self ha _ hs)
  | @member a s members v w ha hs h _ ih =>
      cases hordered with
      | object keys values =>
          obtain ⟨key, _, hmem⟩ := Members.mem_of_named? h
          have hbelow : HoldsNoNull s v := by
            intro b inner hreach
            refine hfull b inner (.member ha hs ?_)
            rw [Members.valueOf_of_named? h]
            exact hreach
          rw [ih hbelow (values _ hmem)]
          have hget : members.get? (members.slot s.name) = some v := by
            rw [Members.get?_slot, h]
          rw [Members.put_of_get? keys hget]
  | @item a front back v w hset hmulti _ ih =>
      have hv : v ∈ front ++ v :: back := List.mem_append_right _ List.mem_cons_self
      cases hordered with
      | array values =>
          have hbelow : HoldsNoNull a.singleValued v :=
            fun b inner hreach => hfull b inner (.item hset hmulti hv hreach)
          rw [ih hbelow (values v hv)]

end Sheds

end Scim.Validation
