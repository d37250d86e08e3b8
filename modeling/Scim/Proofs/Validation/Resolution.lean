import Scim.Evaluation.Acceptance
import Scim.Proofs.Path.Lookup
import Scim.Proofs.Validation.Conformance

/-!
# Paths in validated resources

In a resource that the check of types accepts, the path of every attribute leads somewhere.

The descriptor is found because the names of a path are those on the way to its attribute
(`Path.target_names_iff`).  The value is found because a value that conforms to a complex attribute
is `null` or an object, so no name meets a value without members (`Path.descendInto_single`).

Below a multi-valued attribute the values of all elements are collected.  What is collected from an
element may be a value or an array of values; either way it *spreads* to single values
(`Answers.spread`), so the collected array is flat again and has nothing but single values.
-/

namespace Scim

open Schema (exists_of_follow_cons follow_cons_of_some namesAlong_cons_of_some)

/-- An attribute above the end of the chain, or the one that it starts from, is multi-valued. -/
def Attribute.ManyAbove (a : Attribute) (chain : List Nat) : Prop :=
  ∃ front back b, chain = front ++ back ∧ back ≠ [] ∧ Schema.follow a front = some b ∧
    b.multiValued = true

/-- What a path to an attribute may lead to.  Below a multi-valued attribute that is `null` or a
flat array of single values, else a value of the attribute. -/
def Answers (many : Prop) (a : Attribute) (v : Json) : Prop :=
  (¬ many → Conforms a v) ∧
    (many → v = .null ∨ ∃ items, v = .array items ∧
      ∀ w ∈ items, w.array? = none ∧ Conforms a.singleValued w)

variable {a b s : Attribute} {chain rest : List Nat} {position : Nat} {v w : Json}
  {items : List Json} {many : Prop} {accept : Path.Acceptance} {path : String}

/-! ## Chains -/

namespace Attribute

theorem not_manyAbove_nil : ¬ a.ManyAbove [] := by
  rintro ⟨front, back, b, hsplit, hne, _⟩
  exact hne (List.append_eq_nil_iff.mp hsplit.symm).2

/-- The attributes above the end of a chain are its start and those above the end of the rest. -/
theorem manyAbove_cons_iff (hs : a.subAttributes[position]? = some s) :
    a.ManyAbove (position :: rest) ↔ a.multiValued = true ∨ s.ManyAbove rest := by
  constructor
  · rintro ⟨front, back, b, hsplit, hne, hb, hmulti⟩
    cases front with
    | nil =>
        cases hb
        exact .inl hmulti
    | cons i front =>
        obtain ⟨rfl, rfl⟩ := List.cons_eq_cons.mp hsplit
        rw [follow_cons_of_some hs] at hb
        exact .inr ⟨front, back, b, rfl, hne, hb, hmulti⟩
  · rintro (hmulti | ⟨front, back, b, rfl, hne, hb, hmulti⟩)
    · exact ⟨[], position :: rest, a, rfl, List.cons_ne_nil _ _, rfl, hmulti⟩
    · exact ⟨position :: front, back, b, rfl, hne, (follow_cons_of_some hs).trans hb, hmulti⟩

end Attribute

/-! ## Answers -/

namespace Conforms

/-- A single value is no array. -/
theorem array?_eq_none (h : Conforms a.singleValued v) : v.array? = none := by
  cases v with
  | array items => cases (array_iff.mp h).1
  | _ => rfl

/-- A value of a multi-valued attribute is `null` or an array. -/
theorem null_or_array (h : Conforms a v) (hmulti : a.multiValued = true) :
    v = .null ∨ ∃ items, v = .array items := by
  cases h with
  | null => exact .inl rfl
  | array => exact .inr ⟨_, rfl⟩
  | object single _ _ => cases hmulti.symm.trans single
  | simple single _ _ => cases hmulti.symm.trans single

/-- A single value of a complex attribute is `null` or an object. -/
theorem null_or_object (h : Conforms a.singleValued v) (hcomplex : a.isComplex = true) :
    v = .null ∨ ∃ members, v = .object members := by
  cases h with
  | null => exact .inl rfl
  | array multi _ => cases multi
  | object => exact .inr ⟨_, rfl⟩
  | simple _ simple _ => cases hcomplex.symm.trans simple

/-- A value that is neither `null` nor an array is a single value. -/
theorem of_not_array (h : Conforms a v) (hnull : v ≠ .null) (harray : v.array? = none) :
    Conforms a.singleValued v := by
  cases hmulti : a.multiValued with
  | true =>
      rcases h.null_or_array hmulti with rfl | ⟨items, rfl⟩
      · exact absurd rfl hnull
      · cases harray
  | false => rwa [Attribute.singleValued_eq_self hmulti]

end Conforms

namespace Answers

theorem null : Answers many a .null := ⟨fun _ => .null, fun _ => .inl rfl⟩

/-- Whatever a path leads to, it spreads to single values. -/
theorem spread (h : Answers many a v) : ∀ w ∈ Path.spread v, Conforms a.singleValued w := by
  by_cases hmany : many
  · rcases h.2 hmany with rfl | ⟨items, rfl, hitems⟩
    · exact fun _ hw => absurd hw List.not_mem_nil
    · exact fun w hw => (hitems w hw).2
  · have hconforms := h.1 hmany
    cases v with
    | null => exact fun _ hw => absurd hw List.not_mem_nil
    | array items => exact (Conforms.array_iff.mp hconforms).2
    | _ =>
        intro w hw
        rw [List.mem_singleton.mp hw]
        exact hconforms.of_not_array nofun rfl

end Answers

/-! ## Steps -/

namespace Path

/-- A name leads on from a single value, which is `null` or an object. -/
theorem descendInto_single {steps : List Step} (hsound : a.Sound) (hs : s ∈ a.subAttributes)
    (hv : Conforms a.singleValued v)
    (hnext : ∀ u, Conforms s u → ∃ w, descend accept path steps s u = .ok w ∧ Answers many b w) :
    ∃ w, descendInto path s.name (descend accept path steps) a v = .ok w ∧ Answers many b w := by
  rcases hv.null_or_object (hsound.complex.mpr (List.ne_nil_of_mem hs)) with
    rfl | ⟨members, rfl⟩
  · exact ⟨.null, rfl, .null⟩
  · rw [descendInto_object (hsound.sub?_of_mem hs)]
    exact hnext _ ((Conforms.object_iff.mp hv).2.2 s hs)

/-- A name leads on from all elements of an array, to single values. -/
theorem descendIntoAll_single {steps : List Step} (hsound : a.Sound) (hs : s ∈ a.subAttributes)
    (hitems : ∀ v ∈ items, Conforms a.singleValued v)
    (hnext : ∀ u, Conforms s u → ∃ w, descend accept path steps s u = .ok w ∧ Answers many b w) :
    ∃ found, descendIntoAll path s.name (descend accept path steps) a items = .ok found ∧
      ∀ w ∈ found, Conforms b.singleValued w := by
  induction items with
  | nil => exact ⟨[], rfl, fun _ hw => absurd hw List.not_mem_nil⟩
  | cons v rest ih =>
      obtain ⟨hv, hrest⟩ := List.forall_mem_cons.mp hitems
      obtain ⟨w, hw, hanswers⟩ := descendInto_single hsound hs hv hnext
      obtain ⟨others, hothers, hsingle⟩ := ih hrest
      refine ⟨Path.spread w ++ others, ?_, List.forall_mem_append.mpr ⟨hanswers.spread, hsingle⟩⟩
      rw [descendIntoAll, hw, ok_bind, hothers, ok_bind]

/-- The names on the way to an attribute lead to a value in what conforms. -/
theorem exists_descend (accept : Acceptance) (path : String) (hsound : a.Sound)
    (hv : Conforms a v) (h : Schema.follow a chain = some b) :
    ∃ w, descend accept path ((a.namesAlong chain).map .name) a v = .ok w ∧
      Answers (a.ManyAbove chain) b w := by
  induction chain generalizing a v with
  | nil =>
      cases h
      exact ⟨v, rfl, fun _ => hv, fun hmany => absurd hmany Attribute.not_manyAbove_nil⟩
  | cons position rest ih =>
      obtain ⟨s, hs, hrest⟩ := exists_of_follow_cons h
      have hmem := List.mem_of_getElem? hs
      have hnext := fun u (hu : Conforms s u) => ih (hsound.sub hmem) hu hrest
      rw [namesAlong_cons_of_some hs, List.map_cons, Attribute.manyAbove_cons_iff hs, descend]
      cases hmulti : a.multiValued with
      | false =>
          rw [or_iff_right Bool.false_ne_true]
          rw [← Attribute.singleValued_eq_self hmulti] at hv
          exact descendInto_single hsound hmem hv hnext
      | true =>
          rcases hv.null_or_array hmulti with rfl | ⟨items, rfl⟩
          · exact ⟨.null, rfl, .null⟩
          · obtain ⟨found, hfound, hsingle⟩ :=
              descendIntoAll_single hsound hmem (Conforms.array_iff.mp hv).2 hnext
            refine ⟨.array found, ?_, fun hmany => absurd (.inl rfl) hmany, fun _ =>
              .inr ⟨found, rfl, fun w hw => ⟨(hsingle w hw).array?_eq_none, hsingle w hw⟩⟩⟩
            rw [descendInto, hfound, ok_bind]

end Path

namespace Validation

/-- A resource that the check of types accepts conforms as a whole. -/
theorem conforms_of_checkTypes {schema : Schema} {r : Resource} (h : schema.Accepted)
    (hr : checkTypes schema r = .ok ()) : Conforms schema.root r.toJson := by
  obtain ⟨_, hcomplex, hsingle⟩ := h.root
  exact .object hsingle hcomplex ((checkTypes_eq_ok_iff h.sound r).mp hr)

/-- In a resource that the check of types accepts, the path of every attribute of plain names leads
to that attribute.  It leads to a value of the attribute, or to a flat array of single values of it
if there is a multi-valued attribute above. -/
theorem resolve_of_checkTypes {schema : Schema} {r : Resource} {chain : List Nat} {a : Attribute}
    (h : schema.Accepted) (hplain : ∀ n ∈ schema.root.namesAlong chain, Path.IsPlain n)
    (hr : checkTypes schema r = .ok ()) (hne : chain ≠ [])
    (ha : Schema.follow schema.root chain = some a) :
    ∃ v, Path.resolve a.path schema.root r.toJson = .ok ⟨v, a⟩ ∧
      (¬ schema.root.ManyAbove chain → Conforms a v) ∧
      (schema.root.ManyAbove chain → v = .null ∨ ∃ items, v = .array items ∧
        ∀ w ∈ items, w.array? = none ∧ Conforms a.singleValued w) := by
  obtain ⟨v, hv, hanswers⟩ :=
    Path.exists_descend Filter.Tree.accepts a.path h.sound (conforms_of_checkTypes h hr) ha
  refine ⟨v, ?_, hanswers⟩
  have hcompile : Path.compile Filter.defaultMaxLength a.path =
      .ok ((schema.root.namesAlong chain).map .name) := by
    rw [h.path_eq hne ha]
    exact Path.compile_dotted (fun n hn => (hplain n hn).isName)
      (Schema.namesAlong_ne_nil ha hne)
  rw [Path.resolve, Filter.Tree.resolveBy, hcompile, ok_bind, Path.follow,
    (Path.target_names_iff h.sound).mpr ⟨chain, ha, rfl⟩, ok_bind, hv, ok_bind]

/-- In a group with a member that is `null` and one without an identifier, the identifiers of the
members are those of the others. -/
theorem resolve_of_checkTypes_group :
    let r : Resource := ⟨[("displayName", .string "Ops"),
      ("members", .array [.object [("value", .string "u1")], .null, .object [("value", .null)],
        .object [("VALUE", .string "u3")]])]⟩
    ∃ a items, Schema.follow Schema.group.root [1, 0] = some a ∧
      Schema.group.root.ManyAbove [1, 0] ∧ checkTypes Schema.group r = .ok () ∧
      Path.resolve a.path Schema.group.root r.toJson = .ok ⟨.array items, a⟩ ∧
      (Json.array items == .array [.string "u1", .string "u3"]) = true ∧
      ∀ w ∈ items, w.array? = none ∧ Conforms a.singleValued w := by
  intro r
  have hplain : ∀ n ∈ Schema.group.root.namesAlong [1, 0], Path.IsPlain n := by decide +kernel
  have hr : checkTypes Schema.group r = .ok () := rfl
  obtain ⟨a, ha, hpath⟩ : ∃ a, Schema.follow Schema.group.root [1, 0] = some a ∧
      a.path = "members.value" := ⟨_, rfl, by decide +kernel⟩
  have hmany : Schema.group.root.ManyAbove [1, 0] := ⟨[1], [0], _, rfl, by decide, rfl, rfl⟩
  obtain ⟨v, hv, _, hitems⟩ :=
    resolve_of_checkTypes (.built Schema.build_group) hplain hr (List.cons_ne_nil _ _) ha
  have hvalue : (Path.resolve "members.value" Schema.group.root r.toJson).toOption.any
      (fun found => found.value == .array [.string "u1", .string "u3"]) = true := by decide +kernel
  rw [← hpath, hv] at hvalue
  obtain rfl | ⟨items, rfl, hsingle⟩ := hitems hmany
  · cases hvalue
  · exact ⟨a, items, ha, hmany, hr, hv, hvalue, hsingle⟩

end Validation

end Scim
