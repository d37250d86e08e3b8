import Scim.Proofs.Validation.Retention

/-!
# Immutable attributes keep their values

An immutable attribute that has a stored value is visited wherever the walk comes to the object
around it, and then the client must have sent the same value.  Below single-valued attributes the
walk comes to it in one of three ways.

* An attribute around it is read-only.  Then the client gets back what is stored.
* An attribute around it is immutable.  That one has a stored value too, so the client must have
  sent the same value.
* Otherwise the client has sent an object for every attribute around it (`Supplies`).

`enforceMutability_keeps_immutable` says that in all three ways the resource keeps the stored
value, up to what enforcement does inside a value (`Retains`).  That is not nothing: `null` is
dropped, and the read-only values in elements that are not told apart are mixed up or lost
(`enforceMutability_loses_inside`).
-/

namespace Scim

/-! ## Values along a chain of attributes -/

namespace Validation

/-- The attributes of a chain lead from `a` to `b`, all but the last one single objects. -/
inductive Leads : Attribute → List Attribute → Attribute → Prop where
  | here {a : Attribute} : Leads a [] a
  | step {a s b : Attribute} {chain : List Attribute} (hsingle : a.multiValued = false)
      (hcomplex : a.isComplex = true) (hs : s ∈ a.subAttributes) (h : Leads s chain b) :
      Leads a (s :: chain) b

/-- The value that a chain of attributes leads to. -/
def valueAt : Json → List Attribute → Option Json
  | v, [] => some v
  | .object members, s :: chain => (Members.named? members s.name).bind fun v => valueAt v chain
  | _, _ :: _ => none

/-- There is an object around every attribute of a chain, down to the first one that mutability
protects. -/
def Supplies : Json → List Attribute → Prop
  | _, [] => True
  | v, s :: chain => ∃ members : Members, v = .object members ∧
      (s.mutability = .readOnly ∨ s.mutability = .immutable ∨
        Supplies (members.valueOf s.name) chain)

variable {a b s : Attribute} {chain : List Attribute} {members others kept : Members}
  {v w x y : Json} {ancestors : List (Walk.Frame (Option Json))} {reference : Option Members}

/-- A value that a chain of attributes leads through is an object. -/
theorem exists_of_valueAt (h : valueAt v (s :: chain) = some y) :
    ∃ (members : Members) (x : Json), v = .object members ∧
      members.named? s.name = some x ∧ valueAt x chain = some y := by
  cases v with
  | object members =>
      obtain ⟨x, hx, hy⟩ := Option.bind_eq_some_iff.mp h
      exact ⟨members, x, rfl, hx, hy⟩
  | _ => cases h

theorem valueAt_object (h : members.named? s.name = some x) :
    valueAt (.object members) (s :: chain) = valueAt x chain := by
  rw [valueAt, h]
  rfl

/-- Equal values lead to equal values. -/
theorem valueAt_of_beq (h : (v == w) = true) (hy : valueAt w chain = some y) :
    ∃ x, valueAt v chain = some x ∧ (x == y) = true := by
  induction chain generalizing v w with
  | nil =>
      cases hy
      exact ⟨v, rfl, h⟩
  | cons s chain ih =>
      obtain ⟨others, u, rfl, hu, hy⟩ := exists_of_valueAt hy
      obtain ⟨members, rfl, hsame⟩ := Json.object_of_beq h
      have hnamed := Members.named?_of_sameMembers hsame s.name
      rw [hu] at hnamed
      cases hx : members.named? s.name with
      | none =>
          rw [hx] at hnamed
          cases hnamed
      | some x =>
          rw [hx] at hnamed
          cases hnamed with
          | some hxu =>
              obtain ⟨z, hz, hzy⟩ := ih hxu hy
              exact ⟨z, by rw [valueAt_object hx, hz], hzy⟩

/-- What leads to an assigned value is assigned. -/
theorem isAssigned_of_valueAt (hsound : a.Sound) (hlead : Leads a chain b)
    (hy : valueAt v chain = some y) (h : b.isAssigned y = true) : a.isAssigned v = true := by
  induction hlead generalizing v with
  | here =>
      cases hy
      exact h
  | @step a s b chain _ hcomplex hs _ ih =>
      obtain ⟨members, x, rfl, hx, hy⟩ := exists_of_valueAt hy
      obtain ⟨key, halike, hmem⟩ := Members.mem_of_named? hx
      have hassigned : s.isAssigned x = true := ih (hsound.sub hs) hy h
      have hsub : a.sub? key = some s := by
        rw [Attribute.sub?_congr halike]
        exact hsound.sub?_of_mem hs
      rw [Attribute.isAssigned, if_pos hcomplex, Attribute.isAnyMemberAssigned_eq_any]
      exact List.any_eq_true.mpr ⟨(key, x), hmem, by simp [hsub, hassigned]⟩

theorem isNull_of_isAssigned (h : a.isAssigned v = true) : v.isNull = false := by
  cases v with
  | null => cases h
  | _ => rfl

/-- What leads to a value that is not `null` is not `null`. -/
theorem isNull_of_valueAt (hy : valueAt v chain = some y) (h : y.isNull = false) :
    v.isNull = false := by
  cases chain with
  | nil =>
      cases hy
      exact h
  | cons s chain =>
      obtain ⟨_, _, rfl, _, _⟩ := exists_of_valueAt hy
      rfl

/-! ## What is retained along a chain -/

/-- A member of an object that is not `null` is retained. -/
theorem Retains.named? (h : Retains false a (.object members) w) (hs : s ∈ a.subAttributes)
    (hx : members.named? s.name = some x) (hfull : x.isNull = false) :
    ∃ (kept : Members) (y : Json), w = .object kept ∧ kept.named? s.name = some y ∧
      Retains false s x y := by
  cases h with
  | refl => exact ⟨members, x, rfl, hx, .refl⟩
  | @object _ _ _ kept _ value hvalue hput _ _ =>
      have hretains := hvalue s hs (.inl rfl)
      rw [Members.valueOf_of_named? hx] at hretains
      exact ⟨kept, value s, rfl, hput s hs (hretains.isNull_eq ▸ hfull), hretains⟩

/-- What a chain leads to is retained. -/
theorem Retains.valueAt (h : Retains false a v w) (hlead : Leads a chain b)
    (hy : valueAt v chain = some y) (hfull : y.isNull = false) :
    ∃ z, Validation.valueAt w chain = some z ∧ Retains false b y z := by
  induction hlead generalizing v w with
  | here =>
      cases hy
      exact ⟨w, rfl, h⟩
  | @step a s b chain _ _ hs _ ih =>
      obtain ⟨members, x, rfl, hx, hy⟩ := exists_of_valueAt hy
      have hfull' : x.isNull = false := isNull_of_valueAt hy hfull
      obtain ⟨kept, u, rfl, hu, hxu⟩ := h.named? hs hx hfull'
      obtain ⟨z, hz, hyz⟩ := ih hxu hy
      exact ⟨z, by rw [valueAt_object hu, hz], hyz⟩

/-! ## Visits on the way down -/

/-- The visit of an immutable attribute fails where the value is not the stored one. -/
theorem visitMutability_changed (visit : Walk.Visit (Option Json))
    (him : visit.descriptor.mutability = .immutable)
    (hchanged : isChanged visit.descriptor visit.content v = true) :
    ∃ cause, mutabilityEditor.visit visit v = pure (v, .error cause) := by
  simp only [mutabilityEditor, visitMutability, him, if_pos hchanged]
  exact ⟨_, rfl⟩

/-- The visit of an immutable attribute that ends well has met the stored value, if there is
one. -/
theorem beq_of_visitAttribute (him : a.mutability = .immutable)
    (hvisit : mutabilityEditor.visitAttribute ancestors reference a v = ⟨w, .ok ()⟩)
    (hstored : (reference.bind fun r => r.named? a.name) = some x) (hx : a.isAssigned x = true) :
    (v == x) = true := by
  have hkept : isChanged a (some x) v = false := by
    refine Bool.eq_false_iff.mpr fun hchanged => ?_
    obtain ⟨cause, hfailed⟩ :=
      visitMutability_changed ⟨a, some x, ancestors, none⟩ him hchanged
    unfold Walk.Editor.visitAttribute at hvisit
    rw [hstored, Walk.Editor.visitWhole, hfailed] at hvisit
    cases hvisit
  simp only [isChanged, hx, Bool.true_and, Bool.or_eq_false_iff] at hkept
  simpa [bne] using hkept.2

/-! ## Stored values that are kept -/

/-- The value of `b` at the end of a chain is left of one that is equal to `y`. -/
def KeepsAt (b : Attribute) (chain : List Attribute) (y v : Json) : Prop :=
  ∃ x z, valueAt v chain = some z ∧ (x == y) = true ∧ Retains false b x z

/-- What the visit of an attribute keeps is kept by the walk through the object around it. -/
theorem keepsAt_of_walkAll (hsound : a.Sound) (hs : s ∈ a.subAttributes)
    (hwalk : mutabilityEditor.walkAll ancestors reference members a.subAttributes =
      pure ⟨kept, .ok ()⟩)
    (hassigned : b.isAssigned y = true)
    (h : ∀ w, mutabilityEditor.visitAttribute ancestors reference s (members.valueOf s.name) =
      ⟨w, .ok ()⟩ → KeepsAt b chain y w) :
    KeepsAt b (s :: chain) y (.object kept) := by
  obtain ⟨before, w, _, hvisit, hkept⟩ := Walk.Editor.walkAll_visits hwalk hsound.distinct hs
  obtain ⟨x, z, hz, hbeq, hretains⟩ := h w hvisit
  have hfull : w.isNull = false := by
    refine isNull_of_valueAt hz ?_
    rw [← hretains.isNull_eq, Json.isNull_eq_of_beq hbeq]
    exact isNull_of_isAssigned hassigned
  have hnamed : kept.named? s.name = some w := by
    rw [Members.named?_congr hkept, Walk.Editor.named?_store hfull]
  exact ⟨x, z, by rw [valueAt_object hnamed, hz], hbeq, hretains⟩

/-- The visit of a read-only attribute gives what is stored below it. -/
theorem keepsAt_of_readOnly (hro : a.mutability = .readOnly)
    (hvisit : mutabilityEditor.visitAttribute ancestors reference a v = ⟨w, .ok ()⟩)
    (hstored : (reference.bind fun r => r.named? a.name) = some x)
    (hy : valueAt x chain = some y) : KeepsAt b chain y w := by
  rw [visitAttribute_readOnly hro, hstored] at hvisit
  have hvalue : w = if v == x then v else x := (congrArg Walk.Edited.value hvisit).symm
  have hbeq : (w == x) = true := by
    rw [hvalue]
    split
    · assumption
    · exact Json.beq_refl x
  obtain ⟨z, hz, hzy⟩ := valueAt_of_beq hbeq hy
  exact ⟨z, z, hz, hzy, .refl⟩

/-- The visit of an immutable attribute keeps what is stored below it, if it is assigned. -/
theorem keepsAt_of_immutable (hsound : a.Sound) (him : a.mutability = .immutable)
    (hlead : Leads a chain b)
    (hvisit : mutabilityEditor.visitAttribute ancestors reference a v = ⟨w, .ok ()⟩)
    (hstored : (reference.bind fun r => r.named? a.name) = some x)
    (hy : valueAt x chain = some y) (hassigned : b.isAssigned y = true) : KeepsAt b chain y w := by
  have hsame : (v == x) = true :=
    beq_of_visitAttribute him hvisit hstored (isAssigned_of_valueAt hsound hlead hy hassigned)
  have hset : a.mutability ≠ .readOnly := by simp [him]
  have hagrees : Agrees false (reference.bind fun r => r.named? a.name) v :=
    .inr (by rw [hstored]; exact hsame)
  have hretains := visitAttribute_retains hsound hset hagrees hvisit
  obtain ⟨u, hu, huy⟩ := valueAt_of_beq hsame hy
  have hfull : u.isNull = false := by
    rw [Json.isNull_eq_of_beq huy]
    exact isNull_of_isAssigned hassigned
  obtain ⟨z, hz, huz⟩ := hretains.valueAt hlead hu hfull
  exact ⟨u, z, hz, huy, huz⟩

/-- The visit of an attribute keeps the stored value of an immutable one below it. -/
theorem keepsAt_of_visitAttribute (hsound : a.Sound) (hlead : Leads a chain b)
    (him : b.mutability = .immutable)
    (hvisit : mutabilityEditor.visitAttribute ancestors reference a v = ⟨w, .ok ()⟩)
    (hstored : (reference.bind fun r => r.named? a.name) = some x)
    (hy : valueAt x chain = some y) (hassigned : b.isAssigned y = true)
    (hsupplied : a.mutability = .readOnly ∨ a.mutability = .immutable ∨ Supplies v chain) :
    KeepsAt b chain y w := by
  induction hlead generalizing v w x ancestors reference with
  | here => exact keepsAt_of_immutable hsound him .here hvisit hstored hy hassigned
  | @step a s b chain hsingle hcomplex hs hlead ih =>
      rcases hsupplied with hro | him' | hsupplied
      · exact keepsAt_of_readOnly hro hvisit hstored hy
      · exact keepsAt_of_immutable hsound him' (.step hsingle hcomplex hs hlead) hvisit hstored hy
          hassigned
      · by_cases hro : a.mutability = .readOnly
        · exact keepsAt_of_readOnly hro hvisit hstored hy
        obtain ⟨members, rfl, hsupplied⟩ := hsupplied
        obtain ⟨others, x, rfl, hx, hy⟩ := exists_of_valueAt hy
        obtain ⟨below, kept, rfl, hwalk⟩ :=
          walkAll_of_visitAttribute ⟨hro, hsingle, hcomplex⟩ hvisit
        refine keepsAt_of_walkAll hsound hs hwalk hassigned fun w hw => ?_
        have hbelow : (((reference.bind fun r => r.named? a.name).bind Json.object?).bind
            fun r => Members.named? r s.name) = some x := by
          rw [hstored]
          exact hx
        exact ih (hsound.sub hs) him hw hbelow hy hassigned hsupplied

/-- If the enforcement succeeds beside a stored version, an immutable attribute below single-valued
ones keeps its assigned value, wherever the client supplies the objects around it. -/
theorem enforceMutability_keeps_immutable {schema : Schema} (hschema : schema.Accepted)
    {stored r kept : Resource} (h : enforceMutability schema (some stored) r = ⟨kept, .ok ()⟩) :
    ∀ (chain : List Attribute) (b : Attribute) (y : Json), Leads schema.root chain b →
      b.mutability = .immutable → valueAt stored.toJson chain = some y →
      b.isAssigned y = true → Supplies r.toJson chain → KeepsAt b chain y kept.toJson := by
  have hsound := hschema.sound
  have hwalk := walkAll_of_enforceMutability h
  rintro chain b y hlead him hy hassigned hsupplied
  cases hlead with
  | here =>
      obtain ⟨hset, _, _⟩ := hschema.root
      rw [hset] at him
      cases him
  | @step _ s _ chain _ _ hs hlead =>
      obtain ⟨others, x, hothers, hx, hy⟩ := exists_of_valueAt hy
      obtain ⟨members, hmembers, hsupplied⟩ := hsupplied
      cases hothers
      cases hmembers
      refine keepsAt_of_walkAll hsound hs hwalk hassigned fun w hw => ?_
      exact keepsAt_of_visitAttribute (hsound.sub hs) hlead him hw hx hy hassigned hsupplied

/-- A badge gets another color and keeps its serial number. -/
theorem enforceMutability_keeps_immutable_serial :
    let attributes : List Attribute := [{ name := "badge", type := .complex, subAttributes :=
      [{ name := "color" }, { name := "serial", mutability := .immutable }] }]
    let stored : Resource :=
      ⟨[("badge", .object [("color", .string "red"), ("serial", .string "7")])]⟩
    let r : Resource :=
      ⟨[("badge", .object [("color", .string "blue"), ("serial", .string "7")])]⟩
    ∃ schema badge serial, Schema.build "urn:badges" "Badge" none attributes = .ok schema ∧
      Leads schema.root [badge, serial] serial ∧ serial.mutability = .immutable ∧
      valueAt stored.toJson [badge, serial] = some (.string "7") ∧
      serial.isAssigned (.string "7") = true ∧ Supplies r.toJson [badge, serial] ∧
      ∃ kept, enforceMutability schema (some stored) r = ⟨kept, .ok ()⟩ ∧
        KeepsAt serial [badge, serial] (.string "7") kept.toJson := by
  intro attributes stored r
  obtain ⟨schema, hbuild, badge, serial, kept, hbadge, hserial, hbadgeName, hserialName, hsingle,
      hcomplex, him, hkept⟩ : ∃ schema,
      Schema.build "urn:badges" "Badge" none attributes = .ok schema ∧
      ∃ badge serial kept, schema.root.sub? "badge" = some badge ∧
        badge.sub? "serial" = some serial ∧ badge.name = "badge" ∧ serial.name = "serial" ∧
        badge.multiValued = false ∧ badge.isComplex = true ∧ serial.mutability = .immutable ∧
        enforceMutability schema (some stored) r = ⟨kept, .ok ()⟩ := by
    dsimp only [attributes, stored, r]
    exact ⟨_, Schema.build_eq (by decide +kernel) (by decide +kernel), _, _, _, rfl, rfl, rfl, rfl,
      rfl, rfl, rfl, rfl⟩
  have hschema : schema.Accepted := .built hbuild
  obtain ⟨_, hrootComplex, hrootSingle⟩ := hschema.root
  obtain ⟨hbadgeMem, _⟩ := Attribute.mem_of_sub? hbadge
  obtain ⟨hserialMem, _⟩ := Attribute.mem_of_sub? hserial
  have hlead : Leads schema.root [badge, serial] serial :=
    .step hrootSingle hrootComplex hbadgeMem (.step hsingle hcomplex hserialMem .here)
  have hstored : valueAt stored.toJson [badge, serial] = some (.string "7") := by
    rw [Resource.toJson, valueAt_object (by rw [hbadgeName]; rfl),
      valueAt_object (by rw [hserialName]; rfl), valueAt]
  have hassigned : serial.isAssigned (.string "7") = true := rfl
  have hsupplied : Supplies r.toJson [badge, serial] := by
    refine ⟨_, rfl, .inr (.inr ⟨[("color", .string "blue"), ("serial", .string "7")], ?_,
      .inr (.inl him)⟩)⟩
    rw [hbadgeName]
    rfl
  exact ⟨schema, badge, serial, hbuild, hlead, him, hstored, hassigned, hsupplied, kept, hkept,
    enforceMutability_keeps_immutable hschema hkept _ _ _ hlead him hstored hassigned hsupplied⟩

/-- An immutable attribute that is sent as it is stored loses a `null`.  In an array inside it an
element takes the read-only value of an element with the same value of the index key, and an
element without such a value loses its own. -/
theorem enforceMutability_loses_inside :
    let marks : Attribute :=
      { name := "marks", type := .complex, multiValued := true,
        subAttributes := [{ name := "origin", mutability := .readOnly }, { name := "value" }] }
    let attributes : List Attribute :=
      [{ name := "crest", type := .complex, mutability := .immutable,
          subAttributes := [{ name := "motto" }, { name := "note" }, marks] }]
    let crest : Json := .object [("marks", .array [
        .object [("origin", .string "o1"), ("value", .string "k")],
        .object [("origin", .string "o2"), ("value", .string "k")],
        .object [("origin", .string "o3")]]), ("motto", .string "A"), ("note", .null)]
    let r : Resource := ⟨[("crest", crest)]⟩
    ∃ schema a, Schema.build "urn:badges" "Badge" none attributes = .ok schema ∧
      schema.root.sub? "crest" = some a ∧ a.mutability = .immutable ∧ a.isAssigned crest = true ∧
      ∃ kept, enforceMutability schema (some r) r = ⟨kept, .ok ()⟩ ∧
        (∃ v, kept.get? "crest" = some v ∧ (v == crest) = false) ∧
        kept.get? "crest" = some (.object [("marks", .array [
          .object [("origin", .string "o2"), ("value", .string "k")],
          .object [("origin", .string "o2"), ("value", .string "k")],
          .object []]), ("motto", .string "A")]) := by
  intro marks attributes crest r
  let left : Json := .object [("marks", .array [
      .object [("origin", .string "o2"), ("value", .string "k")],
      .object [("origin", .string "o2"), ("value", .string "k")],
      .object []]), ("motto", .string "A")]
  let schema := Schema.assemble "urn:badges" "Badge" none
    (Schema.withCommon attributes Schema.commonAttributes)
  have hbuild : Schema.build "urn:badges" "Badge" none attributes = .ok schema :=
    Schema.build_eq (by decide +kernel) (by
      dsimp only [attributes, marks]
      decide +kernel)
  obtain ⟨a, ha, him, hassigned⟩ : ∃ a, schema.root.sub? "crest" = some a ∧
      a.mutability = .immutable ∧ a.isAssigned crest = true := by
    dsimp only [schema, crest, attributes, marks]
    exact ⟨_, rfl, rfl, rfl⟩
  have hkept : enforceMutability schema (some r) r = ⟨⟨[("crest", left)]⟩, .ok ()⟩ := by
    dsimp only [schema, r, left, crest, attributes, marks]
    decide +kernel
  exact ⟨schema, a, hbuild, ha, him, hassigned, _, hkept, ⟨left, rfl, rfl⟩, rfl⟩

end Validation

end Scim
