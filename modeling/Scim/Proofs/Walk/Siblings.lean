import Scim.Proofs.Json.Footprint
import Scim.Proofs.Schema.Soundness
import Scim.Walk.Paired

/-!
# Attributes that are walked side by side

A walk beside a reference goes through the attributes of an object one after the other.  What it
puts back for one of them is under that attribute's name, so every attribute is visited with the
value that it had at the start, and what its visit has made of it is there at the end
(`walkAll_visits`).

The lemmas on walks that end well say which visits have ended well and what they have given.
-/

namespace Scim.Walk.Editor

open Attribute (DistinctNames)

variable {ε : Type} {w : Editor Id ε} {ancestors : List (Frame (Option Json))}
  {reference : Option Members} {members kept : Members} {a : Attribute} {as : List Attribute}
  {name other : String} {v : Json} {edited : Edited ε Json}

/-! ## Putting values back -/

/-- Putting back the value of a name changes nothing but the slot of the name. -/
theorem store_cases (members : Members) (name : String) (edited : Edited ε Json) :
    (store members name edited).value = members ∨
    (store members name edited).value = members.put (members.slot name) edited.value ∨
    (store members name edited).value = members.remove (members.slot name) := by
  obtain ⟨v, result⟩ := edited
  cases hkey : members.key? name with
  | none =>
      have hslot : members.slot name = name := by simp [Members.slot, hkey]
      cases result with
      | error cause => exact .inl (by simp [store, hkey])
      | ok =>
          by_cases hnull : v.isNull = true
          · exact .inl (by simp [store, hkey, hnull])
          · exact .inr (.inl (by simp [store, hkey, hnull, hslot]))
  | some key =>
      have hslot : members.slot name = key := Members.slot_of_key? hkey
      cases result with
      | error cause => exact .inr (.inl (by simp [store, hkey, hslot]))
      | ok =>
          by_cases hnull : v.isNull = true
          · exact .inr (.inr (by simp [store, hkey, hnull, hslot]))
          · exact .inr (.inl (by simp [store, hkey, hnull, hslot]))

/-- Putting back the value of a name leaves the members under another name alone. -/
theorem under_store (h : Text.alike name other = false) :
    (store members name edited).value.under other = members.under other := by
  have hslot := Text.not_alike_of_alike (Members.alike_slot members name) h
  rcases store_cases members name edited with hstore | hstore | hstore
  · rw [hstore]
  · rw [hstore, Members.under_put_of_not_alike hslot]
  · rw [hstore, Members.under_remove_of_not_alike hslot]

/-- Putting back the value of a name leaves the members in other slots alone. -/
theorem get?_store_of_ne {key : String} (h : members.slot name ≠ key) :
    (store members name edited).value.get? key = members.get? key := by
  rcases store_cases members name edited with hstore | hstore | hstore
  · rw [hstore]
  · rw [hstore, Members.get?_put_of_ne (Ne.symm h)]
  · rw [hstore, Members.get?_remove_of_ne (Ne.symm h)]

/-- Putting back the value of a name keeps members in order. -/
theorem inOrder_store (h : members.InOrder) (name : String) (edited : Edited ε Json) :
    (store members name edited).value.InOrder := by
  rcases store_cases members name edited with hstore | hstore | hstore
  · rwa [hstore]
  · rw [hstore]
    exact h.put _ _
  · rw [hstore]
    exact h.remove _

/-- Putting back the value of a name keeps keys distinct. -/
theorem distinctKeys_store (h : members.DistinctKeys) (hordered : members.InOrder) (name : String)
    (edited : Edited ε Json) : (store members name edited).value.DistinctKeys := by
  rcases store_cases members name edited with hstore | hstore | hstore
  · rwa [hstore]
  · rw [hstore]
    exact h.put_slot hordered name _
  · rw [hstore]
    exact h.filter _

/-- Putting back a value in order keeps an object in order. -/
theorem ordered_store (h : (Json.object members).Ordered) (name : String)
    (hedited : edited.value.Ordered) :
    (Json.object (store members name edited).value).Ordered := by
  rcases store_cases members name edited with hstore | hstore | hstore
  · rwa [hstore]
  · rw [hstore]
    exact Members.ordered_put h _ hedited
  · rw [hstore]
    exact Members.ordered_remove h _

/-- What a change of every member makes of an object in which a value has been put back, if it made
the same of the value that was there. -/
theorem filterMap_store {f g : String × Json → Option (String × Json)} (hordered : members.InOrder)
    (hother : ∀ m ∈ members, members.key? name ≠ some m.1 → g m = f m)
    (hnew : members.key? name = none → edited.value.isNull = false →
      g (name, edited.value) = none)
    (hdrop : ∀ key, members.key? name = some key → edited.value.isNull = true →
      f (key, members.valueOf name) = none)
    (hput : ∀ key, members.key? name = some key →
      edited.value.isNull = false ∨ edited.result ≠ .ok () →
      g (key, edited.value) = f (key, members.valueOf name)) :
    (store members name edited).value.filterMap g = members.filterMap f := by
  obtain ⟨w, result⟩ := edited
  unfold store
  cases hkey : members.key? name with
  | none =>
      have hsame : members.filterMap g = members.filterMap f :=
        List.filterMap_congr fun m hm => hother m hm (by simp [hkey])
      cases result with
      | error cause => exact hsame
      | ok =>
          dsimp only
          split
          case isTrue => exact hsame
          case isFalse hfull =>
              have hslot : members.slot name = name := by
                rw [Members.slot, hkey]
                rfl
              have hget : members.get? name = none := by
                rw [← hslot, Members.get?_slot, Members.named?_eq_none hkey]
              rw [Members.filterMap_put_of_new hget (hnew hkey (by simpa using hfull)), hsame]
  | some key =>
      obtain ⟨v, hget⟩ := Members.exists_of_key? hkey
      rw [Members.valueOf_of_key? hkey hget] at hdrop hput
      have hother' : ∀ m ∈ members, m.1 ≠ key → g m = f m := fun m hm hne =>
        hother m hm (by rw [hkey]; exact fun h => hne (Option.some.inj h).symm)
      cases result with
      | error cause =>
          exact Members.filterMap_put_of_get? hordered hget (hput key hkey (.inr (by simp)))
            hother'
      | ok =>
          dsimp only
          split
          case isTrue hnull =>
              exact Members.filterMap_remove_of_get? hordered hget (hdrop key hkey hnull) hother'
          case isFalse hfull =>
              exact Members.filterMap_put_of_get? hordered hget
                (hput key hkey (.inl (by simpa using hfull))) hother'

/-- A value that is put back is the value of the name. -/
theorem named?_store (h : v.isNull = false) :
    (store members name (⟨v, .ok ()⟩ : Edited ε Json)).value.named? name = some v := by
  have hput := Members.named?_put_slot members name v
  unfold store
  cases hkey : members.key? name with
  | none => simpa [h, Members.slot, hkey] using hput
  | some key => simpa [h, Members.slot, hkey] using hput

theorem get?_store (h : v.isNull = false) :
    (store members name (⟨v, .ok ()⟩ : Edited ε Json)).value.get? (members.slot name) = some v := by
  unfold store
  cases hkey : members.key? name <;> simp [h, Members.slot, hkey]

/-- Putting back `null` takes away the member that the name stands for, and no other. -/
theorem store_null :
    (store members name (⟨.null, .ok ()⟩ : Edited ε Json)).value =
      members.remove (members.slot name) := by
  unfold store
  cases hkey : members.key? name with
  | none =>
      rw [Members.remove_slot_of_key? hkey]
      rfl
  | some key =>
      rw [Members.slot_of_key? hkey]
      rfl

theorem result_store : (store members name edited).result = edited.result := by
  obtain ⟨v, result⟩ := edited
  unfold store
  cases members.key? name <;> cases result <;> rfl

/-! ## Visiting one attribute after the other -/

/-- Visits an attribute with its value, beside the value in the reference. -/
def visitAttribute (w : Editor Id ε) (ancestors : List (Frame (Option Json)))
    (reference : Option Members) (a : Attribute) (v : Json) : Edited ε Json :=
  (w.visitWhole
    (fun ancestors reference members => w.walkAll ancestors reference members a.subAttributes)
    ⟨a, reference.bind fun r => r.named? a.name, ancestors, none⟩ v).run

theorem walkAttribute_eq :
    w.walkAttribute ancestors reference members a =
      pure (store members a.name (w.visitAttribute ancestors reference a
        (members.valueOf a.name))) := by
  obtain ⟨traits, subs⟩ := a
  rw [walkAttribute]
  rfl

/-- The walk through attributes ends well if the first one does and the others do. -/
theorem walkAll_cons_eq_ok
    (h : w.walkAll ancestors reference members (a :: as) = pure ⟨kept, .ok ()⟩) :
    ∃ v, w.visitAttribute ancestors reference a (members.valueOf a.name) = ⟨v, .ok ()⟩ ∧
      w.walkAll ancestors reference (store members a.name (⟨v, .ok ()⟩ : Edited ε Json)).value as =
        pure ⟨kept, .ok ()⟩ := by
  rw [walkAll, walkAttribute_eq, pure_bind] at h
  rcases hvisit : w.visitAttribute ancestors reference a (members.valueOf a.name) with ⟨v, result⟩
  rcases hstore : store members a.name (⟨v, result⟩ : Edited ε Json) with ⟨next, ended⟩
  have hended : ended = result := (congrArg Edited.result hstore).symm.trans result_store
  rw [hvisit, hstore] at h
  cases result with
  | error cause => rw [hended] at h; cases h
  | ok _ =>
      rw [hended] at h
      exact ⟨v, rfl, by rw [hstore]; exact h⟩

theorem walkAll_cons_of_ok
    (hv : w.visitAttribute ancestors reference a (members.valueOf a.name) = ⟨v, .ok ()⟩)
    (h : w.walkAll ancestors reference (store members a.name (⟨v, .ok ()⟩ : Edited ε Json)).value
      as = pure ⟨kept, .ok ()⟩) :
    w.walkAll ancestors reference members (a :: as) = pure ⟨kept, .ok ()⟩ := by
  rw [walkAll, walkAttribute_eq, pure_bind, hv]
  rcases hstore : store members a.name (⟨v, .ok ()⟩ : Edited ε Json) with ⟨next, ended⟩
  have hended : ended = .ok () := (congrArg Edited.result hstore).symm.trans result_store
  rw [hstore] at h
  rw [hended]
  exact h

/-- A walk keeps the members under a name that none of its attributes has. -/
theorem walkAll_under
    (h : w.walkAll ancestors reference members as = pure ⟨kept, .ok ()⟩)
    (hnames : ∀ a ∈ as, Text.alike a.name name = false) : kept.under name = members.under name := by
  induction as generalizing members with
  | nil =>
      rw [walkAll] at h
      cases h
      rfl
  | cons a rest ih =>
      obtain ⟨v, _, hrest⟩ := walkAll_cons_eq_ok h
      rw [ih hrest fun b hb => hnames b (List.mem_cons_of_mem a hb)]
      exact under_store (hnames a List.mem_cons_self)

/-- A walk keeps members in order, and their keys distinct. -/
theorem walkAll_keys (h : w.walkAll ancestors reference members as = pure ⟨kept, .ok ()⟩)
    (hordered : members.InOrder) (hkeys : members.DistinctKeys) :
    kept.InOrder ∧ kept.DistinctKeys := by
  induction as generalizing members with
  | nil =>
      rw [walkAll] at h
      cases h
      exact ⟨hordered, hkeys⟩
  | cons a rest ih =>
      obtain ⟨v, _, hrest⟩ := walkAll_cons_eq_ok h
      exact ih hrest (inOrder_store hordered a.name _) (distinctKeys_store hkeys hordered a.name _)

/-- Every attribute is visited with the value that it has, and what the visit has made of the value
is put back under its name. -/
theorem walkAll_visits
    (h : w.walkAll ancestors reference members as = pure ⟨kept, .ok ()⟩)
    (hdistinct : DistinctNames as) (ha : a ∈ as) :
    ∃ before v, before.under a.name = members.under a.name ∧
      w.visitAttribute ancestors reference a (members.valueOf a.name) = ⟨v, .ok ()⟩ ∧
      kept.under a.name =
        (store before a.name (⟨v, .ok ()⟩ : Edited ε Json)).value.under a.name := by
  induction as generalizing members with
  | nil => exact absurd ha List.not_mem_nil
  | cons b rest ih =>
      obtain ⟨hbeside, hdistinct⟩ := List.pairwise_cons.mp hdistinct
      obtain ⟨v, hv, hrest⟩ := walkAll_cons_eq_ok h
      rcases List.mem_cons.mp ha with rfl | ha
      · refine ⟨members, v, rfl, hv, walkAll_under hrest fun c hc => ?_⟩
        rw [Text.alike_comm]
        exact hbeside c hc
      · have hunder : (store members b.name (⟨v, .ok ()⟩ : Edited ε Json)).value.under a.name =
            members.under a.name := under_store (hbeside a ha)
        obtain ⟨before, u, hbefore, hu, hkept⟩ := ih hrest hdistinct ha
        rw [Members.valueOf_congr hunder] at hu
        exact ⟨before, u, hbefore.trans hunder, hu, hkept⟩

/-- If keys are distinct then an attribute has what its visit has made of its value. -/
theorem walkAll_named? (h : w.walkAll ancestors reference members as = pure ⟨kept, .ok ()⟩)
    (hdistinct : DistinctNames as) (ha : a ∈ as) (hkeys : members.DistinctKeys) :
    ∃ v, w.visitAttribute ancestors reference a (members.valueOf a.name) = ⟨v, .ok ()⟩ ∧
      kept.named? a.name = if v.isNull then none else some v := by
  obtain ⟨before, v, hbefore, hvisit, hkept⟩ := walkAll_visits h hdistinct ha
  refine ⟨v, hvisit, ?_⟩
  rw [Members.named?_congr hkept]
  split
  case isFalse hfull => exact named?_store (Bool.not_eq_true _ ▸ hfull)
  case isTrue hnull =>
      cases v with
      | null =>
          rw [store_null, Members.named?_eq_none_iff, Members.under_remove,
            Members.slot_congr hbefore, hbefore, ← Members.under_remove, hkeys.under_remove_slot]
      | _ => cases hnull

/-! ## Going below -/

variable {inner : Inner Id ε} {visit whole : Visit (Option Json)} {position : Nat}
  {u p : Json} {items rest found : List Json}

/-- Going below an object ends well if the walk through its members does. -/
theorem belowObject_eq_ok (h : belowObject inner visit members = pure ⟨u, .ok ()⟩) :
    ∃ kept, u = .object kept ∧
      inner visit.below (visit.content.bind Json.object?) members = pure ⟨kept, .ok ()⟩ :=
  ⟨_, (congrArg Edited.value h).symm, congrArg (Edited.mk _) (congrArg Edited.result h)⟩

/-- An element is visited beside one partner after the other. -/
theorem visitBeside_cons_eq_ok
    (h : w.visitBeside inner visit v (p :: found) = pure ⟨u, .ok ()⟩) :
    ∃ next, w.visitElement inner { visit with content := some p } v = pure ⟨next, .ok ()⟩ ∧
      w.visitBeside inner visit next found = pure ⟨u, .ok ()⟩ := by
  rw [visitBeside] at h
  obtain ⟨⟨next, result⟩, hedited⟩ : ∃ edited,
      w.visitElement inner { visit with content := some p } v = pure edited := ⟨_, rfl⟩
  rw [hedited, pure_bind] at h
  cases result with
  | error cause => cases h
  | ok => exact ⟨next, hedited, h⟩

/-- Visits an element beside each of its partners, or beside nothing. -/
def visitPaired (w : Editor Id ε) (inner : Inner Id ε) (whole : Visit (Option Json))
    (position : Nat) (v : Json) : Edited ε Json :=
  let visit := ⟨whole.descriptor.element, none, whole.below, some position⟩
  match w.partners whole.descriptor whole.content v with
  | [] => (w.visitElement inner visit v).run
  | p :: found => (w.visitBeside inner visit v (p :: found)).run

/-- Goes on through an array after the visit of an element, if that has ended well. -/
def visitRest (w : Editor Id ε) (inner : Inner Id ε) (whole : Visit (Option Json))
    (position : Nat) (rest : List Json) : Edited ε Json → Edited ε (List Json)
  | ⟨u, .error cause⟩ => ⟨u :: rest, .error cause⟩
  | ⟨u, .ok ()⟩ =>
      let others := (w.visitElements inner whole (position + 1) rest).run
      ⟨u :: others.value, others.result⟩

theorem visitElements_cons :
    w.visitElements inner whole position (v :: rest) =
      pure (w.visitRest inner whole position rest (w.visitPaired inner whole position v)) := by
  rw [visitElements, visitPaired]
  cases w.partners whole.descriptor whole.content v <;> rfl

/-- The walk through the elements of an array ends well if the first visit does and the others
do. -/
theorem visitElements_cons_eq_ok
    (h : w.visitElements inner whole position (v :: rest) = pure ⟨items, .ok ()⟩) :
    ∃ u others, items = u :: others ∧ w.visitPaired inner whole position v = ⟨u, .ok ()⟩ ∧
      w.visitElements inner whole (position + 1) rest = pure ⟨others, .ok ()⟩ := by
  rw [visitElements_cons] at h
  rcases hpaired : w.visitPaired inner whole position v with ⟨u, _ | _⟩
  · rw [hpaired] at h
    cases h
  · rw [hpaired] at h
    exact ⟨u, _, (congrArg Edited.value h).symm, rfl,
      congrArg (Edited.mk _) (congrArg Edited.result h)⟩

/-- Going through an array ends well if the walk through its elements does. -/
theorem elements_eq_ok
    (h : (w.visitElements inner visit 0 items >>= fun edited =>
      pure ⟨.array edited.value, edited.result⟩ : Id (Edited ε Json)) = pure ⟨u, .ok ()⟩) :
    ∃ kept, u = .array kept ∧ w.visitElements inner visit 0 items = pure ⟨kept, .ok ()⟩ :=
  ⟨_, (congrArg Edited.value h).symm, congrArg (Edited.mk _) (congrArg Edited.result h)⟩

/-- The walk through the elements of an array makes something of every element. -/
theorem visitElements_each
    (h : w.visitElements inner whole position items = pure ⟨found, .ok ()⟩) :
    found.length = items.length ∧ ∀ (i : Nat) (v u : Json), items[i]? = some v →
      found[i]? = some u → w.visitPaired inner whole (position + i) v = ⟨u, .ok ()⟩ := by
  induction items generalizing position found with
  | nil =>
      cases h
      exact ⟨rfl, fun i v u hv => by simp at hv⟩
  | cons x rest ih =>
      obtain ⟨y, others, rfl, hpaired, hothers⟩ := visitElements_cons_eq_ok h
      obtain ⟨hlength, hrest⟩ := ih hothers
      refine ⟨by simp [hlength], fun i v u hv hu => ?_⟩
      cases i with
      | zero =>
          cases hv
          cases hu
          exact hpaired
      | succ i =>
          rw [Nat.add_comm i 1, ← Nat.add_assoc]
          exact hrest i v u hv hu

end Scim.Walk.Editor
