import Scim.Proofs.Validation.Retention

/-!
# Elements beside the others of their array

When a resource is enforced beside itself, an element of an array is compared with the elements
that have its value of the index key, one after the other and itself among them, or with nothing
if it has no such value.  It *comes back* (`ComesBack`) if it passes all of these comparisons and
has lost nothing but members that are `null` in the end.

What a comparison makes of an element does not depend on where the element is
(`visitPaired_anywhere`).  So if a whole resource comes back then every element does that is not
in an array inside another one (`comesBack_of_walkAll`).
-/

namespace Scim.Validation

/-- Going down from the value `v` of `a` through objects alone, a walk comes to the value `w`
of `b`. -/
inductive Within : Attribute → Json → Attribute → Json → Prop where
  | here {a : Attribute} {v : Json} : Within a v a v
  | member {a s b : Attribute} {members : Members} {w : Json} (ha : Opens a)
      (hs : s ∈ a.subAttributes) (h : Within s (members.valueOf s.name) b w) :
      Within a (.object members) b w

/-- An element of the array `items` of a complex attribute `b` that is in the value `v` of `a`, but
in no other array there. -/
structure IsElement (a : Attribute) (v : Json) (b : Attribute) (items : List Json) (e : Json) :
    Prop where
  within : Within a v b (.array items)
  settable : b.mutability ≠ .readOnly
  multi : b.multiValued = true
  complex : b.isComplex = true
  mem : e ∈ items

/-- How the enforcement goes on below the objects of an attribute. -/
abbrev enforceBelow (a : Attribute) : Walk.Editor.Inner Id Error :=
  fun ancestors reference members =>
    mutabilityEditor.walkAll ancestors reference members a.subAttributes

/-- Compares an element of an array with the elements there that have its value of the index key,
one after the other, or with nothing if there are none. -/
def compareElement (a : Attribute) (items : List Json) (e : Json) : Walk.Edited Error Json :=
  mutabilityEditor.visitPaired (enforceBelow a) ⟨a, some (.array items), [], none⟩ 0 e

/-- An element passes its comparisons and loses nothing but members that are `null`. -/
def ComesBack (a : Attribute) (items : List Json) (e : Json) : Prop :=
  ∃ w, compareElement a items e = ⟨w, .ok ()⟩ ∧ Sheds a.singleValued e w

variable {a b s : Attribute} {members kept : Members} {items found : List Json} {e u v w : Json}
  {ancestors ancestors' : List (Walk.Frame (Option Json))} {reference : Option Members}
  {inner : Walk.Editor.Inner Id Error} {visit whole : Walk.Visit (Option Json)}
  {element : Option Nat} {position : Nat}

/-! ## Where elements are -/

theorem Within.sound (h : Within a v b w) (hsound : a.Sound) : b.Sound := by
  induction h with
  | here => exact hsound
  | member _ hs _ ih => exact ih (hsound.sub hs)

theorem Within.ne_null (h : Within a v b (.array items)) : v ≠ .null := by
  rintro rfl
  cases h

theorem IsElement.member (ha : Opens a) (hs : s ∈ a.subAttributes)
    (h : IsElement s (members.valueOf s.name) b items e) :
    IsElement a (.object members) b items e :=
  ⟨.member ha hs h.within, h.settable, h.multi, h.complex, h.mem⟩

theorem IsElement.of_array (h : IsElement a (.array found) b items e) : b = a ∧ items = found := by
  obtain ⟨hwithin, _, _, _, _⟩ := h
  cases hwithin with
  | here => exact ⟨rfl, rfl⟩

/-- An element in an object is in one of its members. -/
theorem IsElement.exists_member (h : IsElement a (.object members) b items e) :
    ∃ s ∈ a.subAttributes, ∃ m ∈ members, Text.alike m.1 s.name = true ∧
      IsElement s m.2 b items e := by
  obtain ⟨hwithin, hset, hmulti, hcomplex, hmem⟩ := h
  cases hwithin with
  | @member _ s _ _ _ _ hs hwithin =>
      obtain ⟨key, halike, hm⟩ :=
        Members.mem_of_named? (eq_some_of_getD rfl hwithin.ne_null)
      exact ⟨s, hs, (key, _), hm, halike, hwithin, hset, hmulti, hcomplex, hmem⟩

/-! ## Comparisons anywhere -/

/-- A walk below objects ends well wherever they are. -/
def Placeless (inner : Walk.Editor.Inner Id Error) : Prop :=
  ∀ (ancestors ancestors' : List (Walk.Frame (Option Json))) (reference : Option Members)
    (members kept : Members), inner ancestors reference members = pure ⟨kept, .ok ()⟩ →
    inner ancestors' reference members = pure ⟨kept, .ok ()⟩

theorem visitMutability_anywhere {flow : Walk.Flow}
    (h : mutabilityEditor.visit visit v = pure (u, .ok flow)) :
    mutabilityEditor.visit { visit with ancestors := ancestors, element := element } v =
      pure (u, .ok flow) := by
  change visitMutability visit v = (u, .ok flow) at h
  show visitMutability { visit with ancestors := ancestors, element := element } v = (u, .ok flow)
  unfold visitMutability at h ⊢
  dsimp only at h ⊢
  split at h
  case h_2 =>
      split at h
      case isTrue => cases h
      case isFalse hsame => rw [if_neg hsame, ← h]
  all_goals exact h

theorem belowObject_anywhere (visit : Walk.Visit (Option Json)) (hinner : Placeless inner)
    (h : (if visit.descriptor.isComplex && !visit.descriptor.multiValued then
          Walk.Editor.belowObject inner visit members
        else pure ⟨.object members, .ok ()⟩ : Id (Walk.Edited Error Json)) = pure ⟨u, .ok ()⟩) :
    (if visit.descriptor.isComplex && !visit.descriptor.multiValued then
        Walk.Editor.belowObject inner { visit with ancestors := ancestors, element := element }
          members
      else pure ⟨.object members, .ok ()⟩ : Id (Walk.Edited Error Json)) = pure ⟨u, .ok ()⟩ := by
  split at h
  case isTrue hopens =>
      obtain ⟨kept, rfl, hkept⟩ := Walk.Editor.belowObject_eq_ok h
      rw [if_pos hopens, Walk.Editor.belowObject, hinner _ _ _ _ _ hkept, pure_bind]
  case isFalse hopens =>
      rw [if_neg hopens]
      exact h

theorem visitElement_anywhere (hinner : Placeless inner)
    (h : mutabilityEditor.visitElement inner visit v = pure ⟨u, .ok ()⟩) :
    mutabilityEditor.visitElement inner { visit with ancestors := ancestors, element := element }
      v = pure ⟨u, .ok ()⟩ := by
  obtain ⟨⟨x, result⟩, hvisit⟩ : ∃ y, mutabilityEditor.visit visit v = pure y := ⟨_, rfl⟩
  rw [Walk.Editor.visitElement, hvisit, pure_bind] at h
  cases result with
  | error cause => cases h
  | ok flow =>
      rw [Walk.Editor.visitElement, visitMutability_anywhere hvisit, pure_bind]
      cases flow with
      | skip => exact h
      | goOn =>
          cases x with
          | object members => exact belowObject_anywhere visit hinner h
          | _ => exact h

theorem visitBeside_anywhere (hinner : Placeless inner)
    (h : mutabilityEditor.visitBeside inner visit v found = pure ⟨u, .ok ()⟩) :
    mutabilityEditor.visitBeside inner { visit with ancestors := ancestors, element := element } v
      found = pure ⟨u, .ok ()⟩ := by
  induction found generalizing v with
  | nil => exact h
  | cons p rest ih =>
      obtain ⟨next, hnext, hrest⟩ := Walk.Editor.visitBeside_cons_eq_ok h
      have hfirst : mutabilityEditor.visitElement inner
          { visit with content := some p, ancestors := ancestors, element := element } v =
            pure ⟨next, .ok ()⟩ := visitElement_anywhere hinner hnext
      rw [Walk.Editor.visitBeside, hfirst, pure_bind]
      exact ih hrest

/-- What comparing an element makes of it does not depend on where the element is. -/
theorem visitPaired_anywhere (hinner : Placeless inner)
    (h : mutabilityEditor.visitPaired inner whole position v = ⟨u, .ok ()⟩) (position' : Nat) :
    mutabilityEditor.visitPaired inner { whole with ancestors := ancestors, element := element }
      position' v = ⟨u, .ok ()⟩ := by
  unfold Walk.Editor.visitPaired at h ⊢
  dsimp only at h ⊢
  cases hfound : mutabilityEditor.partners whole.descriptor whole.content v with
  | nil =>
      rw [hfound] at h
      exact visitElement_anywhere hinner h
  | cons p rest =>
      rw [hfound] at h
      exact visitBeside_anywhere hinner h

theorem visitElements_anywhere (hinner : Placeless inner)
    (h : mutabilityEditor.visitElements inner whole position items = pure ⟨found, .ok ()⟩) :
    mutabilityEditor.visitElements inner { whole with ancestors := ancestors, element := element }
      position items = pure ⟨found, .ok ()⟩ := by
  induction items generalizing position found with
  | nil => exact h
  | cons v rest ih =>
      obtain ⟨u, others, rfl, hpaired, hothers⟩ := Walk.Editor.visitElements_cons_eq_ok h
      rw [Walk.Editor.visitElements_cons, visitPaired_anywhere hinner hpaired]
      unfold Walk.Editor.visitRest
      rw [ih hothers]
      rfl

theorem visitWhole_anywhere (hinner : Placeless inner)
    (h : mutabilityEditor.visitWhole inner visit v = pure ⟨u, .ok ()⟩) :
    mutabilityEditor.visitWhole inner { visit with ancestors := ancestors, element := element } v =
      pure ⟨u, .ok ()⟩ := by
  obtain ⟨⟨x, result⟩, hvisit⟩ : ∃ y, mutabilityEditor.visit visit v = pure y := ⟨_, rfl⟩
  rw [Walk.Editor.visitWhole, hvisit, pure_bind] at h
  cases result with
  | error cause => cases h
  | ok flow =>
      rw [Walk.Editor.visitWhole, visitMutability_anywhere hvisit, pure_bind]
      cases flow with
      | skip => exact h
      | goOn =>
          cases x with
          | object members => exact belowObject_anywhere visit hinner h
          | array items =>
              dsimp only at h ⊢
              split at h
              case isTrue hmulti =>
                  obtain ⟨kept, rfl, hkept⟩ := Walk.Editor.elements_eq_ok h
                  rw [if_pos hmulti, visitElements_anywhere hinner hkept]
                  rfl
              case isFalse hmulti =>
                  rw [if_neg hmulti]
                  exact h
          | _ => exact h

mutual

theorem visitAttribute_anywhere : ∀ (a : Attribute)
    (ancestors ancestors' : List (Walk.Frame (Option Json))) (reference : Option Members)
    (v u : Json), mutabilityEditor.visitAttribute ancestors reference a v = ⟨u, .ok ()⟩ →
    mutabilityEditor.visitAttribute ancestors' reference a v = ⟨u, .ok ()⟩
  | ⟨_, subs⟩, _, _, _, _, _, h => visitWhole_anywhere (placeless_walkAll subs) h
termination_by structural a => a

/-- A walk through attributes ends well wherever they are. -/
theorem placeless_walkAll : ∀ (as : List Attribute),
    Placeless fun ancestors reference members =>
      mutabilityEditor.walkAll ancestors reference members as
  | [] => fun _ _ _ _ _ h => h
  | a :: rest => fun ancestors ancestors' reference members kept h => by
      obtain ⟨v, hv, hrest⟩ := Walk.Editor.walkAll_cons_eq_ok h
      exact Walk.Editor.walkAll_cons_of_ok (visitAttribute_anywhere a _ _ _ _ _ hv)
        (placeless_walkAll rest _ _ _ _ _ hrest)
termination_by structural as => as

end

/-! ## Elements of what comes back -/

/-- If an object comes back from the walk through it, then so does what is not `null` in it. -/
theorem exists_visit_of_walkAll (hsound : a.Sound) (hs : s ∈ a.subAttributes)
    (hwalk : mutabilityEditor.walkAll ancestors reference members a.subAttributes =
      pure ⟨kept, .ok ()⟩)
    (hsheds : Sheds a (.object members) (.object kept)) (hfull : members.valueOf s.name ≠ .null) :
    ∃ u, mutabilityEditor.visitAttribute ancestors reference s (members.valueOf s.name) =
      ⟨u, .ok ()⟩ ∧ Sheds s (members.valueOf s.name) u := by
  obtain ⟨before, u, hbefore, hvisit, hkept⟩ := Walk.Editor.walkAll_visits hwalk hsound.distinct hs
  refine ⟨u, hvisit, ?_⟩
  have halike := Members.alike_slot members s.name
  obtain ⟨_, x, hx, hget, hsheds⟩ := hsheds.slot hsound hs halike
    ((Members.get?_slot members s.name).trans (eq_some_of_getD rfl hfull)) hfull
  cases hx
  rw [← Members.get?_under halike, hkept, Members.get?_under halike,
    ← Members.slot_congr hbefore] at hget
  cases hnull : u.isNull with
  | true =>
      rw [eq_null_of_isNull hnull, Walk.Editor.store_null, Members.get?_remove_self] at hget
      cases hget
  | false =>
      rw [Walk.Editor.get?_store hnull] at hget
      cases hget
      exact hsheds

/-- If a value comes back from the enforcement beside itself, then so do the elements in it. -/
theorem comesBack_of_visitAttribute (hsound : a.Sound) (he : IsElement a v b items e)
    (hstored : (reference.bind fun r => r.named? a.name) = some v)
    (hvisit : mutabilityEditor.visitAttribute ancestors reference a v = ⟨w, .ok ()⟩)
    (hsheds : Sheds a v w) : ComesBack b items e := by
  obtain ⟨hwithin, hset, hmulti, hcomplex, hmem⟩ := he
  generalize hitems : Json.array items = x at hwithin
  induction hwithin generalizing ancestors reference w with
  | @here a v =>
      subst hitems
      obtain ⟨kept, rfl, hkept⟩ := elements_of_visitAttribute hset hmulti hvisit
      rw [hstored] at hkept
      obtain ⟨i, hi⟩ := List.getElem?_of_mem hmem
      obtain ⟨_, hx, hleft⟩ := hsheds.array
      cases hx
      obtain ⟨u, hu, hsheds⟩ := hleft i e hi
      have hpaired := (Walk.Editor.visitElements_each hkept).2 i e u hi hu
      exact ⟨u, visitPaired_anywhere (placeless_walkAll a.subAttributes) hpaired 0, hsheds⟩
  | @member a s b members x ha hs hwithin ih =>
      obtain ⟨_, kept, rfl, hkept⟩ := walkAll_of_visitAttribute ha hvisit
      have hfull : members.valueOf s.name ≠ .null := (hitems ▸ hwithin).ne_null
      obtain ⟨u, hu, hsheds⟩ := exists_visit_of_walkAll hsound hs hkept hsheds hfull
      rw [hstored] at hu
      exact ih (hsound.sub hs) (eq_some_of_getD rfl hfull) hu hsheds hset hmulti hcomplex hitems

/-- If an object comes back from the walk beside itself, then so do the elements in it. -/
theorem comesBack_of_walkAll (hsound : a.Sound) (he : IsElement a (.object members) b items e)
    (hwalk : mutabilityEditor.walkAll ancestors (some members) members a.subAttributes =
      pure ⟨kept, .ok ()⟩)
    (hsheds : Sheds a (.object members) (.object kept)) : ComesBack b items e := by
  obtain ⟨hwithin, hset, hmulti, hcomplex, hmem⟩ := he
  cases hwithin with
  | @member _ s _ _ _ ha hs hwithin =>
      obtain ⟨u, hu, hsheds⟩ := exists_visit_of_walkAll hsound hs hwalk hsheds hwithin.ne_null
      exact comesBack_of_visitAttribute (hsound.sub hs) ⟨hwithin, hset, hmulti, hcomplex, hmem⟩
        (eq_some_of_getD rfl hwithin.ne_null) hu hsheds

end Scim.Validation
