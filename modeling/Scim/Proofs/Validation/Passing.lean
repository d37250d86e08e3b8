import Scim.Proofs.Validation.Comparisons
import Scim.Proofs.Validation.Meetings

/-!
# What passes the enforcement of mutability

The walk is taken through any property of values beside what is stored that makes them fit and that
goes down with the walk (`Passes`).  A value that fits is left as it is by its own visit
(`visitMutability_of_fits`), and what is below it may lose members that are `null`, so a value with
the property passes and loses nothing else (`Passes.walkAll`).

* To accord with what is stored is such a property (`passes_accords`), so an element that is
  consistent with the others of its array comes back (`comesBack_of_consistent`).
* To be what is stored is another one, if the elements come back (`passes_itself`).
-/

namespace Scim.Validation

open Attribute (DistinctNames)

variable {again : Bool} {a s : Attribute} {stored : Option Json} {v p : Json} {members : Members}
  {items rest : List Json}

/-! ## Equal values -/

mutual

/-- Of two equal values both are assigned or none is. -/
theorem isAssigned_congr : ∀ (v : Json) {w : Json} (a : Attribute), Json.same v w = true →
    a.isAssigned v = a.isAssigned w
  | .null, w, a, h | .bool _, w, a, h | .number _, w, a, h => by
      cases w <;> first | rfl | cases h
  | .string s, w, a, h => by
      cases w <;> simp_all [Json.same]
  | .array items, w, a, h => by
      cases w <;> first | cases h | exact isAnyAssigned_congr items a.element h
  | .object members, w, a, h => by
      cases w with
      | object others =>
          have hempty : members.isEmpty = List.isEmpty others := by
            cases members <;> cases others <;> first | rfl | cases h
          rw [Attribute.isAssigned, Attribute.isAssigned, isAnyMemberAssigned_congr members a h,
            hempty]
      | _ => cases h
termination_by structural v => v

theorem isAnyAssigned_congr : ∀ (items : List Json) {others : List Json} (a : Attribute),
    Json.sameItems items others = true → a.isAnyAssigned items = a.isAnyAssigned others
  | [], others, a, h => by cases others <;> first | rfl | cases h
  | v :: rest, [], a, h => by cases h
  | v :: rest, w :: others, a, h => by
      rw [Json.sameItems, Bool.and_eq_true] at h
      rw [Attribute.isAnyAssigned, Attribute.isAnyAssigned, isAssigned_congr v a h.1,
        isAnyAssigned_congr rest a h.2]
termination_by structural items => items

theorem isAnyMemberAssigned_congr : ∀ (members : List (String × Json))
    {others : List (String × Json)} (a : Attribute), Json.sameMembers members others = true →
    a.isAnyMemberAssigned members = a.isAnyMemberAssigned others
  | [], others, a, h => by cases others <;> first | rfl | cases h
  | (k, v) :: rest, [], a, h => by cases h
  | (k, v) :: rest, (l, w) :: others, a, h => by
      rw [Json.sameMembers, Bool.and_eq_true, Bool.and_eq_true, beq_iff_eq] at h
      obtain ⟨⟨rfl, hv⟩, hrest⟩ := h
      rw [Attribute.isAnyMemberAssigned, Attribute.isAnyMemberAssigned,
        isAnyMemberAssigned_congr rest a hrest]
      cases a.sub? k with
      | none => rfl
      | some s => exact congrArg (· || _) (isAssigned_congr v s hv)
termination_by structural members => members

end

/-! ## Visits -/

/-- An immutable attribute that fits has not changed. -/
theorem Fits.isChanged_eq (h : Fits a stored v) (him : a.mutability = .immutable) :
    isChanged a stored v = false := by
  cases stored with
  | none => rfl
  | some p =>
      rw [isChanged]
      cases hassigned : a.isAssigned p with
      | false => rfl
      | true =>
          have heq := h.immutable him p rfl hassigned
          rw [isAssigned_congr v a heq, hassigned, bne, heq]
          rfl

/-- The visit of a value that fits changes nothing, and goes on unless the attribute is
read-only. -/
theorem visitMutability_of_fits {visit : Walk.Visit (Option Json)}
    (h : Fits visit.descriptor visit.content v) :
    visitMutability visit v =
      (v, .ok (if visit.descriptor.mutability = .readOnly then .skip else .goOn)) := by
  unfold visitMutability
  dsimp only
  split
  case h_1 hro => rw [if_pos (h.readOnly hro), if_pos hro]
  case h_2 him =>
      rw [h.isChanged_eq him, him]
      rfl
  case h_3 hrw => rw [hrw]; rfl
  case h_4 hwo => rw [hwo]; rfl

/-! ## What passes -/

variable {P : Attribute → Option Json → Json → Prop} {inner : Walk.Editor.Inner Id Error}

/-- Going on below objects of an attribute ends well and sheds at most `null` members, if the
sub-attributes have the property `P` beside what is stored. -/
def Keeps (P : Attribute → Option Json → Json → Prop) (inner : Walk.Editor.Inner Id Error)
    (a : Attribute) : Prop :=
  ∀ (ancestors : List (Walk.Frame (Option Json))) (reference : Option Members) (members : Members),
    (∀ s ∈ a.subAttributes, P s (reference.bind fun r => r.named? s.name)
      (members.valueOf s.name)) →
    ∃ kept, inner ancestors reference members = pure ⟨kept, .ok ()⟩ ∧
      Sheds a (.object members) (.object kept)

/-- What has the property beside what is stored fits, and so does what is below it. -/
structure Descends (P : Attribute → Option Json → Json → Prop) : Prop where
  fits {a : Attribute} {stored : Option Json} {v : Json} (h : P a stored v) : Fits a stored v
  member {a s : Attribute} {stored : Option Json} {members : Members}
    (h : P a stored (.object members)) (ha : Opens a) (hs : s ∈ a.subAttributes) :
    P s ((stored.bind Json.object?).bind fun r => Members.named? r s.name) (members.valueOf s.name)

/-- The elements of arrays with the property pass their comparisons and lose at most members that
are `null`. -/
structure Passes (P : Attribute → Option Json → Json → Prop) : Prop extends Descends P where
  element {whole : Walk.Visit (Option Json)} {items : List Json} {v : Json} (position : Nat)
    (hsound : whole.descriptor.Sound)
    (h : P whole.descriptor whole.content (.array items))
    (hset : whole.descriptor.mutability ≠ .readOnly) (hmulti : whole.descriptor.multiValued = true)
    (hv : v ∈ items)
    (hinner : Opens whole.descriptor.singleValued →
      Keeps P (enforceBelow whole.descriptor) whole.descriptor.singleValued) :
    ∃ w, mutabilityEditor.visitPaired (enforceBelow whole.descriptor) whole position v =
      ⟨w, .ok ()⟩ ∧ Sheds whole.descriptor.singleValued v w

/-- Below an object with the property. -/
theorem Descends.belowObject (hP : Descends P) {visit : Walk.Visit (Option Json)}
    (h : P visit.descriptor visit.content (.object members))
    (hset : visit.descriptor.mutability ≠ .readOnly)
    (hinner : Opens visit.descriptor → Keeps P inner visit.descriptor) :
    ∃ w, (if visit.descriptor.isComplex && !visit.descriptor.multiValued then
          Walk.Editor.belowObject inner visit members
        else pure ⟨.object members, .ok ()⟩ : Id (Walk.Edited Error Json)) = pure ⟨w, .ok ()⟩ ∧
      Sheds visit.descriptor (.object members) w := by
  split
  case isTrue hopens =>
      obtain ⟨hcomplex, hsingle⟩ := Bool.and_eq_true_iff.mp hopens
      have ha : Opens visit.descriptor := ⟨hset, (Bool.not_eq_true' _).mp hsingle, hcomplex⟩
      obtain ⟨kept, hkept, hsheds⟩ :=
        hinner ha visit.below _ members fun s hs => hP.member h ha hs
      refine ⟨.object kept, ?_, hsheds⟩
      rw [Walk.Editor.belowObject, hkept, pure_bind]
  case isFalse => exact ⟨_, rfl, .refl⟩

/-- An element with the property. -/
theorem Descends.visitElement (hP : Descends P) (visit : Walk.Visit (Option Json))
    (h : P visit.descriptor visit.content v)
    (hinner : Opens visit.descriptor → Keeps P inner visit.descriptor) :
    ∃ w, mutabilityEditor.visitElement inner visit v = pure ⟨w, .ok ()⟩ ∧
      Sheds visit.descriptor v w := by
  have hvisit : mutabilityEditor.visit visit v = pure _ := visitMutability_of_fits (hP.fits h)
  rw [Walk.Editor.visitElement, hvisit, pure_bind]
  by_cases hro : visit.descriptor.mutability = .readOnly
  · rw [if_pos hro]
    exact ⟨v, rfl, .refl⟩
  · rw [if_neg hro]
    cases v with
    | object members => exact hP.belowObject h hro hinner
    | _ => exact ⟨_, rfl, .refl⟩

namespace Passes

/-- The elements from a position on of an array with the property. -/
theorem visitElements (hP : Passes P) {whole : Walk.Visit (Option Json)} (position : Nat)
    (front : List Json) {back : List Json} (hsound : whole.descriptor.Sound)
    (h : P whole.descriptor whole.content (.array items))
    (hset : whole.descriptor.mutability ≠ .readOnly) (hmulti : whole.descriptor.multiValued = true)
    (hback : ∀ v ∈ back, v ∈ items)
    (hinner : Opens whole.descriptor.singleValued →
      Keeps P (enforceBelow whole.descriptor) whole.descriptor.singleValued) :
    ∃ kept, mutabilityEditor.visitElements (enforceBelow whole.descriptor) whole position back =
        pure ⟨kept, .ok ()⟩ ∧
      Sheds whole.descriptor (.array (front ++ back)) (.array (front ++ kept)) := by
  induction back generalizing position front with
  | nil => exact ⟨[], rfl, .refl⟩
  | cons v rest ih =>
      obtain ⟨w, hw, hsheds⟩ := hP.element position hsound h hset hmulti
        (hback v List.mem_cons_self) hinner
      obtain ⟨kept, hkept, hsheds'⟩ := ih (position + 1) (front ++ [w])
        fun u hu => hback u (List.mem_cons_of_mem _ hu)
      refine ⟨w :: kept, ?_, ?_⟩
      · rw [Walk.Editor.visitElements_cons, hw]
        unfold Walk.Editor.visitRest
        rw [hkept]
        rfl
      · have hfirst : Sheds whole.descriptor (.array (front ++ v :: rest))
            (.array (front ++ w :: rest)) := .item hset hmulti hsheds
        simp only [List.append_assoc, List.singleton_append] at hsheds'
        exact hfirst.trans hsheds'

/-- An attribute with the property. -/
theorem visitWhole (hP : Passes P) (visit : Walk.Visit (Option Json))
    (hsound : visit.descriptor.Sound) (h : P visit.descriptor visit.content v)
    (hinner : ∀ e : Attribute, e.subAttributes = visit.descriptor.subAttributes → Opens e →
      Keeps P (enforceBelow visit.descriptor) e) :
    ∃ w, mutabilityEditor.visitWhole (enforceBelow visit.descriptor) visit v = pure ⟨w, .ok ()⟩ ∧
      Sheds visit.descriptor v w := by
  have hvisit : mutabilityEditor.visit visit v = pure _ := visitMutability_of_fits (hP.fits h)
  rw [Walk.Editor.visitWhole, hvisit, pure_bind]
  by_cases hro : visit.descriptor.mutability = .readOnly
  · rw [if_pos hro]
    exact ⟨v, rfl, .refl⟩
  · rw [if_neg hro]
    cases v with
    | object members => exact hP.belowObject h hro (hinner _ rfl)
    | array items =>
        by_cases hmulti : visit.descriptor.multiValued = true
        · obtain ⟨kept, hkept, hsheds⟩ := hP.visitElements 0 [] hsound h hro hmulti
            (fun _ hv => hv) (hinner _ rfl)
          refine ⟨.array kept, ?_, hsheds⟩
          dsimp only
          rw [if_pos hmulti, hkept, pure_bind]
        · refine ⟨.array items, ?_, .refl⟩
          dsimp only
          rw [if_neg hmulti]
    | _ => exact ⟨_, rfl, .refl⟩

end Passes

/-! ## The walk -/

/-- Putting back what is left of a value sheds no more, and other names do not notice. -/
theorem store_of_sheds {w : Json} (ha : Opens a) (hs : s ∈ a.subAttributes)
    (h : Sheds s (members.valueOf s.name) w) :
    ∃ kept, Walk.Editor.store members s.name (⟨w, .ok ()⟩ : Walk.Edited Error Json) =
        ⟨kept, .ok ()⟩ ∧
      Sheds a (.object members) (.object kept) ∧
      ∀ name, Text.alike s.name name = false → kept.named? name = members.named? name := by
  unfold Walk.Editor.store
  cases hkey : members.key? s.name with
  | none =>
      have hnull : members.valueOf s.name = .null := by
        rw [Members.valueOf, Members.named?_eq_none hkey]
        rfl
      rw [h.null_iff.mp hnull]
      exact ⟨members, rfl, .refl, fun _ _ => rfl⟩
  | some key =>
      obtain ⟨v, hv⟩ := Members.exists_of_key? hkey
      have hnamed : members.named? s.name = some v := by rw [Members.named?_of_key? hkey, hv]
      have hslot : members.slot s.name = key := Members.slot_of_key? hkey
      have hother : ∀ name, Text.alike s.name name = false → Text.alike key name = false := by
        intro name hname
        have halike : Text.alike key s.name = true := Members.alike_of_key? hkey
        refine Bool.eq_false_iff.mpr fun hkeyName => ?_
        rw [Text.alike_trans (Text.alike_comm key s.name ▸ halike) hkeyName] at hname
        cases hname
      rw [Members.valueOf_of_named? hnamed] at h
      cases hw : w.isNull with
      | true =>
          have hnull : v = .null := h.null_iff.mpr (eq_null_of_isNull hw)
          refine ⟨members.remove key, rfl, ?_, fun name hname => ?_⟩
          · rw [← hslot]
            exact .drop ha hs (hnull ▸ hnamed)
          · exact Members.named?_remove (hother name hname) members
      | false =>
          refine ⟨members.put key w, rfl, ?_, fun name hname => ?_⟩
          · rw [← hslot]
            exact .member ha hs hnamed h
          · exact Members.named?_put (hother name hname) w members

mutual

/-- The walk through one attribute with the property. -/
theorem Passes.walkAttribute (hP : Passes P) : ∀ (ancestors : List (Walk.Frame (Option Json)))
    (reference : Option Members) (members : Members) (a e : Attribute), a.Sound → Opens e →
    a ∈ e.subAttributes →
    P a (reference.bind fun r => r.named? a.name) (members.valueOf a.name) →
    ∃ kept, mutabilityEditor.walkAttribute ancestors reference members a = pure ⟨kept, .ok ()⟩ ∧
      Sheds e (.object members) (.object kept) ∧
      ∀ name, Text.alike a.name name = false → kept.named? name = members.named? name
  | ancestors, reference, members, ⟨traits, subs⟩, e, hsound, he, ha, h => by
      have hinner : ∀ f : Attribute, f.subAttributes = subs → Opens f →
          Keeps P (enforceBelow ⟨traits, subs⟩) f := by
        intro f hsubs hf ancestors reference members hbelow
        exact walkAll hP ancestors reference members subs f hf hsound.distinct
          (fun s hs => ⟨hsound.sub hs, hsubs ▸ hs⟩) (fun s hs => hbelow s (hsubs ▸ hs))
      obtain ⟨w, hw, hsheds⟩ := hP.visitWhole
        ⟨⟨traits, subs⟩, reference.bind fun r => r.named? traits.name, ancestors, none⟩
        hsound h hinner
      obtain ⟨kept, hkept, hmembers, hother⟩ := store_of_sheds he ha hsheds
      refine ⟨kept, ?_, hmembers, hother⟩
      rw [Walk.Editor.walkAttribute, hw, pure_bind, hkept]
termination_by structural _ _ _ a => a

/-- The walk through attributes with the property. -/
theorem Passes.walkAll (hP : Passes P) : ∀ (ancestors : List (Walk.Frame (Option Json)))
    (reference : Option Members) (members : Members) (as : List Attribute) (e : Attribute),
    Opens e → DistinctNames as → (∀ a ∈ as, a.Sound ∧ a ∈ e.subAttributes) →
    (∀ a ∈ as, P a (reference.bind fun r => r.named? a.name) (members.valueOf a.name)) →
    ∃ kept, mutabilityEditor.walkAll ancestors reference members as = pure ⟨kept, .ok ()⟩ ∧
      Sheds e (.object members) (.object kept)
  | _, _, members, [], _, _, _, _, _ => ⟨members, by rw [Walk.Editor.walkAll], .refl⟩
  | ancestors, reference, members, a :: rest, e, he, hdistinct, hsubs, h => by
      obtain ⟨hbeside, hdistinct⟩ := List.pairwise_cons.mp hdistinct
      obtain ⟨hsound, ha⟩ := hsubs a List.mem_cons_self
      obtain ⟨next, hnext, hsheds, hother⟩ := walkAttribute hP ancestors reference
        members a e hsound he ha (h a List.mem_cons_self)
      have hrest : ∀ b ∈ rest, P b (reference.bind fun r => r.named? b.name)
          (next.valueOf b.name) := by
        intro b hb
        rw [Members.valueOf, hother b.name (hbeside b hb)]
        exact h b (List.mem_cons_of_mem _ hb)
      obtain ⟨kept, hkept, hsheds'⟩ := walkAll hP ancestors reference next rest
        e he hdistinct (fun b hb => hsubs b (List.mem_cons_of_mem _ hb)) hrest
      refine ⟨kept, ?_, hsheds.trans hsheds'⟩
      rw [Walk.Editor.walkAll, hnext, pure_bind]
      exact hkept
termination_by structural _ _ _ as => as

end

/-- Below the objects of an attribute. -/
theorem Passes.keeps (hP : Passes P) (hsound : a.Sound) (ha : Opens a.singleValued) :
    Keeps P (enforceBelow a) a.singleValued := fun ancestors reference members h =>
  hP.walkAll ancestors reference members a.subAttributes a.singleValued ha hsound.distinct
    (fun _ hs => ⟨hsound.sub hs, hs⟩) h

/-! ## Elements that accord -/

/-- A value that accords with what is stored, visited again or not. -/
def AccordsOnce (a : Attribute) (stored : Option Json) (v : Json) : Prop :=
  ∃ again, Accords again a stored v

theorem descends_accords : Descends AccordsOnce where
  fits := fun ⟨_, h⟩ => h _ _ _ .self
  member := fun ⟨again, h⟩ ha hs => ⟨again, h.member ha hs⟩

/-- An element that has been visited and accords with all that it meets then. -/
theorem visitBeside_again {visit : Walk.Visit (Option Json)} {found : List Json}
    (h : ∀ p ∈ found, Accords true visit.descriptor (some p) v)
    (hinner : Opens visit.descriptor → Keeps AccordsOnce inner visit.descriptor) :
    ∃ w, mutabilityEditor.visitBeside inner visit v found = pure ⟨w, .ok ()⟩ ∧
      Sheds visit.descriptor v w := by
  induction found generalizing v with
  | nil => exact ⟨v, rfl, .refl⟩
  | cons p rest ih =>
      obtain ⟨u, hu, hsheds⟩ := descends_accords.visitElement { visit with content := some p }
        ⟨true, h p List.mem_cons_self⟩ hinner
      have hrest : ∀ q ∈ rest, Accords true visit.descriptor (some q) u :=
        fun q hq => (h q (List.mem_cons_of_mem _ hq)).shed hsheds
      obtain ⟨w, hw, hsheds'⟩ := ih hrest
      refine ⟨w, ?_, hsheds.trans hsheds'⟩
      rw [Walk.Editor.visitBeside, hu, pure_bind]
      exact hw

/-- An element that accords with all that it meets, or with nothing if there are none. -/
theorem visitPaired_of_accords {whole : Walk.Visit (Option Json)} (position : Nat)
    (hsound : whole.descriptor.Sound)
    (halone : partners whole.descriptor whole.content v = [] →
      Accords again whole.descriptor.singleValued none v)
    (hfirst : ∀ (p : Json) (rest : List Json),
      partners whole.descriptor whole.content v = p :: rest →
      Accords again whole.descriptor.singleValued (some p) v)
    (hlater : ∀ (p : Json) (rest : List Json),
      partners whole.descriptor whole.content v = p :: rest →
      ∀ q ∈ rest, Accords true whole.descriptor.singleValued (some q) v)
    (hinner : Opens whole.descriptor.singleValued →
      Keeps AccordsOnce inner whole.descriptor.singleValued) :
    ∃ w, mutabilityEditor.visitPaired inner whole position v = ⟨w, .ok ()⟩ ∧
      Sheds whole.descriptor.singleValued v w := by
  rw [← hsound.element_eq] at halone hfirst hlater hinner ⊢
  let visit : Walk.Visit (Option Json) :=
    ⟨whole.descriptor.element, none, whole.below, some position⟩
  unfold Walk.Editor.visitPaired
  dsimp only
  cases hfound : mutabilityEditor.partners whole.descriptor whole.content v with
  | nil => exact descends_accords.visitElement visit ⟨again, halone hfound⟩ hinner
  | cons p rest =>
      obtain ⟨u, hu, hsheds⟩ := descends_accords.visitElement { visit with content := some p }
        ⟨again, hfirst p rest hfound⟩ hinner
      have hagain : ∀ q ∈ rest, Accords true visit.descriptor (some q) u :=
        fun q hq => (hlater p rest hfound q hq).shed hsheds
      obtain ⟨w, hw, hsheds'⟩ := visitBeside_again hagain hinner
      refine ⟨w, ?_, hsheds.trans hsheds'⟩
      show mutabilityEditor.visitBeside inner visit v (p :: rest) = pure ⟨w, .ok ()⟩
      rw [Walk.Editor.visitBeside, hu, pure_bind]
      exact hw

theorem passes_accords : Passes AccordsOnce where
  toDescends := descends_accords
  element := fun position hsound ⟨_, h⟩ hset hmulti hv hinner =>
    visitPaired_of_accords position hsound (h.alone hset hmulti hv)
      (fun _ _ hpartners => h.first hset hmulti hv hpartners)
      (fun _ _ hpartners _ hq => h.later hset hmulti hv hpartners hq) hinner

/-- A consistent element comes back. -/
theorem comesBack_of_consistent (hsound : a.Sound) (h : Consistent a items v) :
    ComesBack a items v :=
  visitPaired_of_accords 0 hsound (fun hnone => (h.alone hnone).accords) h.first h.later
    (passes_accords.keeps hsound)

/-! ## Beside itself -/

/-- A value beside itself whose elements come back. -/
structure ComesBackWithin (a : Attribute) (stored : Option Json) (v : Json) : Prop where
  itself : stored.getD .null = v
  elements : ∀ b items e, IsElement a v b items e → ComesBack b items e

theorem passes_itself : Passes ComesBackWithin where
  fits h := fits_self h.itself
  member {a s stored members} h ha hs := by
    obtain ⟨hstored, helements⟩ := h
    obtain rfl := eq_some_of_getD hstored nofun
    exact ⟨rfl, fun b items e he => helements b items e (he.member ha hs)⟩
  element {whole items v} position hsound h hset hmulti hv _ := by
    obtain ⟨hstored, helements⟩ := h
    cases hcomplex : whole.descriptor.isComplex with
    | true =>
        obtain ⟨w, hw, hsheds⟩ :=
          helements whole.descriptor items v ⟨.here, hset, hmulti, hcomplex, hv⟩
        obtain ⟨a, content, ancestors, element⟩ := whole
        obtain rfl := eq_some_of_getD hstored nofun
        exact ⟨w, visitPaired_anywhere (placeless_walkAll a.subAttributes) hw position, hsheds⟩
    | false =>
        have hnone : partners whole.descriptor whole.content v = [] := partners_of_simple hcomplex
        have halone : Accords false whole.descriptor.singleValued none v :=
          (holdsNoReadOnly_of_simple hset hcomplex).accords
        refine visitPaired_of_accords position hsound (fun _ => halone) ?first ?later
          fun hopens => (hopens.not_simple hcomplex).elim
        case first =>
          intro p rest hpartners
          rw [hnone] at hpartners
          cases hpartners
        case later =>
          intro p rest hpartners
          rw [hnone] at hpartners
          cases hpartners

end Scim.Validation
