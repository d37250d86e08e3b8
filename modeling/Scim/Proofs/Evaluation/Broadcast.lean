import Scim.Proofs.Evaluation.ValueFilters

/-!
# Comparisons below an array

The path `emails.type` leads to the types of all mail addresses together.  A comparison of them
with a constant is true if one address on its own satisfies it, and for `ne` if no address has an
equal type (`Service.accepts_broadcast`).

The two sides are evaluated apart.  For the resource the values are collected, without `null` and
with arrays spread, and then compared one by one (`Filter.Tree.Compares.accepts_collection`).  One
address is the value of another descriptor, in which the path is only the name of the type, and
what it leads to is compared alone (`Filter.Tree.Compares.accepts_element`).  A user without the
attribute has no array of addresses, but comparisons do not tell this from an empty one.
-/

namespace Scim

open Scim.Filter (Constant Operator Token Tree)

/-- What an attribute with many elements holds: an array of objects and `null`, or nothing. -/
inductive Collection : Json → List Json → Prop where
  | nothing : Collection .null []
  | array {items : List Json} (h : AreElements items) : Collection (.array items) items

/-- A comparison of a path with a constant. -/
inductive Filter.Tree.Compares (path : String) (op : Operator) (c : Constant) : Tree → Prop where
  | node {t : Token} {l r : Tree} (ht : t.operator? = some op) (hpath : l.path? = some path)
      (hconstant : r.constant? = some c) : Compares path op c (.node t l r)

variable {root a b : Attribute} {members : Members} {items : List Json} {v : Json}
  {inner outer path : String} {op : Operator} {c : Constant} {tree whole part : Tree}

theorem Collection.areElements (h : Collection v items) : AreElements items := by
  cases h with
  | nothing => exact List.forall_mem_nil _
  | array h => exact h

/-! ## One element -/

/-- The value of a sub-attribute in an object or in `null` is what its name leads to. -/
theorem Path.follow_element {accept : Acceptance} (hb : a.sub? inner = some b)
    (hv : v = .null ∨ ∃ members, v = .object members) :
    follow accept path [.name inner] a v = .ok ⟨b.valueIn v, b⟩ := by
  rcases hv with rfl | ⟨members, rfl⟩
  · exact follow_null hb []
  · exact follow_object hb []

namespace Filter.Tree.Compares

/-- A comparison is true if what its path leads to is in the relation. -/
theorem accepts_eq {found : Described} {steps : List Path.Step} (h : Compares path op c tree)
    (hlogical : op.isLogical = false) (hpr : op ≠ .pr)
    (hcompile : Path.compile defaultMaxLength path = .ok steps)
    (hfound : ∀ accept, Path.follow accept path steps a v = .ok found) :
    tree.accepts a v = Comparison.relates op (some found) c := by
  obtain ⟨ht, hpath, hconstant⟩ := h
  rw [accepts, acceptsWithin, eval_comparison ht hlogical hpr, hpath, hconstant, Option.any_some,
    Option.any_some, resolveBy, hcompile, ok_bind, hfound]
  rfl

/-- One element satisfies a comparison if its value is in the relation. -/
theorem accepts_element (h : Compares inner op c tree) (hlogical : op.isLogical = false)
    (hpr : op ≠ .pr) (hname : Path.IsName inner.toList) (hb : a.sub? inner = some b)
    (hv : v = .null ∨ ∃ members, v = .object members) :
    tree.accepts a.element v = Comparison.relates op (some ⟨b.valueIn v, b⟩) c :=
  h.accepts_eq hlogical hpr (Path.compile_name hname) fun _ =>
    Path.follow_element ((Attribute.sub?_element ..).trans hb) hv

end Filter.Tree.Compares

/-! ## All elements -/

/-- Nothing is in the relations in which an empty array is. -/
theorem Comparison.relates_nothing (hmulti : b.multiValued = false) (hsimple : b.isComplex = false)
    (hc : c ≠ .null) :
    relates op (some ⟨.null, b⟩) c = relates op (some ⟨.array [], b⟩) c := by
  have hleft : relates op (some ⟨.null, b⟩) c = absent op c := rfl
  have hright : relates op (some ⟨.array [], b⟩) c = present op b (.array []) c := by
    rw [relates, hmulti, hsimple]
    rfl
  rw [hleft, hright]
  cases op <;> simp [absent, present, hc]

/-- The values in all elements satisfy a comparison if they are in the relation together. -/
theorem Filter.Tree.Compares.accepts_collection (h : Compares (outer ++ "." ++ inner) op c tree)
    (hlogical : op.isLogical = false) (hpr : op ≠ .pr) (houter : Path.IsName outer.toList)
    (hinner : Path.IsName inner.toList) (ha : root.sub? outer = some a)
    (hb : a.sub? inner = some b) (hmulti : b.multiValued = false) (hsimple : b.isComplex = false)
    (hvalue : Collection (members.valueOf a.name) items) (hc : c ≠ .null) :
    tree.accepts root (.object members) =
      Comparison.relates op (some ⟨.array (b.valuesIn items), b⟩) c := by
  have hcompile : Path.compile defaultMaxLength (outer ++ "." ++ inner) =
      .ok [.name outer, .name inner] := Path.compile_member houter hinner
  generalize hv : members.valueOf a.name = v at hvalue
  cases hvalue with
  | nothing =>
      have hfollow : ∀ accept, Path.follow accept (outer ++ "." ++ inner)
          [.name outer, .name inner] root (.object members) = .ok ⟨.null, b⟩ := by
        intro accept
        rw [Path.follow_object ha, hv]
        exact Path.follow_null hb []
      rw [h.accepts_eq hlogical hpr hcompile hfollow]
      exact Comparison.relates_nothing hmulti hsimple hc
  | array helements =>
      refine h.accepts_eq hlogical hpr hcompile fun accept => ?_
      rw [Path.follow_object ha, hv]
      exact Path.follow_elements hb helements

/-- A comparison of a single-valued simple sub-attribute of an attribute with many elements holds
of a resource if it holds of an element, and `ne` holds if `eq` holds of no element. -/
theorem Service.accepts_broadcast {schema : Schema} {r : Resource} (houter : Path.IsPlain outer)
    (hinner : Path.IsPlain inner) (ha : schema.root.sub? outer = some a)
    (hb : a.sub? inner = some b) (hmulti : b.multiValued = false) (hsimple : b.isComplex = false)
    (hvalue : Collection (r.members.valueOf a.name) items) (hc : c ≠ .null) :
    (∀ op whole part, op.isLogical = false → op ≠ .ne → op ≠ .pr →
      Tree.Compares (outer ++ "." ++ inner) op c whole → Tree.Compares inner op c part →
      (accepts schema whole r = true ↔ ∃ v ∈ items, part.accepts a.element v = true)) ∧
    ∀ whole part, Tree.Compares (outer ++ "." ++ inner) .ne c whole →
      Tree.Compares inner .eq c part →
      (accepts schema whole r = true ↔ ∀ v ∈ items, part.accepts a.element v = false) := by
  have helements := hvalue.areElements
  constructor
  · intro op whole part hlogical hne hpr hwhole hpart
    have hsome : accepts schema whole r =
        items.any fun v => Comparison.relates op (some ⟨b.valueIn v, b⟩) c := by
      rw [← Comparison.relates_valuesIn hmulti hsimple hne hc]
      exact hwhole.accepts_collection hlogical hpr houter.isName hinner.isName ha hb hmulti hsimple
        hvalue hc
    rw [hsome, List.any_eq_true]
    refine exists_congr fun v => and_congr_right fun hv => ?_
    rw [hpart.accepts_element hlogical hpr hinner.isName hb (helements v hv)]
  · intro whole part hwhole hpart
    have hnone : accepts schema whole r =
        !items.any fun v => Comparison.relates .eq (some ⟨b.valueIn v, b⟩) c := by
      rw [← Comparison.relates_ne_valuesIn hmulti hsimple hc]
      exact hwhole.accepts_collection rfl (by decide) houter.isName hinner.isName ha hb hmulti
        hsimple hvalue hc
    rw [hnone, Bool.not_eq_true', List.any_eq_false]
    refine forall_congr' fun v => forall_congr' fun hv => ?_
    rw [hpart.accepts_element rfl (by decide) hinner.isName hb (helements v hv),
      Bool.not_eq_true]

/-- A user with a home address and an empty entry matches a filter for its type, and not the
filter for other types. -/
theorem Service.accepts_broadcast_home :
    let test (op : Operator) (path : String) : Tree :=
      .node (.ofOperator op.keyword op) (.leaf (.path path))
        (.leaf ⟨"\"home\"", .constant, .constant (.string "home")⟩)
    let home : Json := .object [("type", .string "Home")]
    let r : Resource := ⟨[("emails", .array [.null, home])]⟩
    Path.IsPlain "EMAILS" ∧ Path.IsPlain "type" ∧
      Schema.user.root.sub? "EMAILS" = some Schema.emails ∧ Schema.emails.multiValued = true ∧
      Schema.emails.isComplex = true ∧ Schema.emails.NamesSimple "type" ∧
      Collection (r.members.valueOf Schema.emails.name) [.null, home] ∧
      accepts Schema.user (test .eq "EMAILS.type") r = true ∧
      accepts Schema.user (test .ne "EMAILS.type") r = false := by
  intro test home r
  obtain ⟨b, hb, hmulti, hsimple⟩ : Schema.emails.NamesSimple "type" := ⟨_, rfl, rfl, rfl⟩
  have houter : Path.IsPlain "EMAILS" := by decide
  have hinner : Path.IsPlain "type" := by decide
  have ha : Schema.user.root.sub? "EMAILS" = some Schema.emails := rfl
  have hvalue : Collection (r.members.valueOf Schema.emails.name) [.null, home] :=
    .array (List.forall_mem_cons.mpr ⟨.inl rfl, List.forall_mem_singleton.mpr (.inr ⟨_, rfl⟩)⟩)
  have hcompares : ∀ op path, Tree.Compares path op (.string "home") (test op path) :=
    fun op path => .node rfl rfl rfl
  obtain ⟨hsome, hnone⟩ := accepts_broadcast houter hinner ha hb hmulti hsimple hvalue
    (c := .string "home") nofun
  have hpath : "EMAILS" ++ "." ++ "type" = "EMAILS.type" := by decide
  rw [hpath] at hsome hnone
  have hhome : (test .eq "type").accepts Schema.emails.element home = true := by decide +kernel
  refine ⟨houter, hinner, ha, rfl, rfl, ⟨b, hb, hmulti, hsimple⟩, hvalue, ?_, ?_⟩
  · rw [hsome .eq _ _ rfl (by decide) (by decide) (hcompares _ _) (hcompares _ _)]
    exact ⟨home, by simp, hhome⟩
  · rw [Bool.eq_false_iff, Ne, hnone _ _ (hcompares _ _) (hcompares _ _)]
    intro hall
    exact Bool.noConfusion (hhome.symm.trans (hall home (by simp)))

end Scim
