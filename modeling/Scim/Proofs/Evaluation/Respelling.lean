import Scim.Evaluation.Acceptance
import Scim.Proofs.Filter.Assembly
import Scim.Proofs.Json.Respelling
import Scim.Proofs.Path.Folding

/-!
# Filters and resources with their names in another case

Attribute names are looked up without regard to case, and so a filter is as true of a resource if
its paths and the keys of the resource are written in another case (`accepts_respelt`).

The two evaluations go side by side.  Paths that are alike lead through the same attributes to
values that are the same but for their keys (`Path.found_descend`), since a name stands for one key
at most.  Of such values the same are assigned (`Attribute.isAssigned_respelt`), and they are in the
same relations to constants (`Comparison.relates_respelt`).
-/

namespace Scim

open Json (Respelt RespeltMember)

/-! ## Presence -/

namespace Attribute

mutual

/-- A value is assigned whatever the case of its keys. -/
theorem isAssigned_respelt : ∀ (a : Attribute) (v w : Json), Respelt v w →
    isAssigned a w = isAssigned a v
  | _, .null, _, h | _, .bool _, _, h | _, .number _, _, h | _, .string _, _, h => by
      cases h
      rfl
  | a, .array items, _, h => by
      cases h with
      | array values => exact isAnyAssigned_respelt a.element items _ values
  | a, .object members, _, h => by
      cases h with
      | @object _ renamed members' keys values perm =>
          have hlength : members'.length = members.length := by
            rw [← perm.length_eq]
            simpa using (congrArg List.length keys).symm
          have hempty : members'.isEmpty = members.isEmpty := by
            rw [Bool.eq_iff_iff, List.isEmpty_iff_length_eq_zero, hlength,
              ← List.isEmpty_iff_length_eq_zero]
          have hany : isAnyMemberAssigned a members' = isAnyMemberAssigned a renamed := by
            rw [isAnyMemberAssigned_eq_any, isAnyMemberAssigned_eq_any]
            exact perm.any_eq.symm
          rw [isAssigned, isAssigned, hempty, hany,
            isAnyMemberAssigned_respelt a members _ (Json.forall₂_respeltMember keys values)]
termination_by structural _ v => v

theorem isAnyAssigned_respelt : ∀ (a : Attribute) (items items' : List Json),
    List.Forall₂ Respelt items items' → isAnyAssigned a items' = isAnyAssigned a items
  | _, [], _, .nil => rfl
  | a, v :: rest, w :: rest', .cons h hrest => by
      rw [isAnyAssigned, isAnyAssigned, isAssigned_respelt a v w h,
        isAnyAssigned_respelt a rest rest' hrest]
termination_by structural _ items => items

theorem isAnyMemberAssigned_respelt : ∀ (a : Attribute) (members renamed : List (String × Json)),
    List.Forall₂ RespeltMember members renamed →
      isAnyMemberAssigned a renamed = isAnyMemberAssigned a members
  | _, [], _, .nil => rfl
  | a, (k, v) :: rest, (k', w) :: rest', .cons ⟨halike, h⟩ hrest => by
      rw [isAnyMemberAssigned, isAnyMemberAssigned, ← sub?_congr halike,
        isAnyMemberAssigned_respelt a rest rest' hrest]
      cases a.sub? k with
      | none => rfl
      | some s =>
          dsimp only
          rw [isAssigned_respelt s v w h]
termination_by structural _ members => members

end

end Attribute

/-! ## Comparison -/

namespace Comparison

variable {op : Filter.Operator} {a : Attribute} {c : Filter.Constant} {v w : Json}

/-- A single value is in the same relations whatever the case of its keys. -/
theorem single_respelt (h : Respelt v w) : single op a w c = single op a v c := by
  cases h with
  | array | object =>
      unfold single
      split
      · rfl
      · cases a.type <;> cases c <;> rfl
  | _ => rfl

theorem any_single_respelt {items items' : List Json} (h : List.Forall₂ Respelt items items') :
    (items'.any fun v => single op a v c) = items.any fun v => single op a v c := by
  induction h with
  | nil => rfl
  | cons hv _ ih => rw [List.any_cons, List.any_cons, single_respelt hv, ih]

/-- What a path leads to is in the same relations whatever the case of its keys. -/
theorem relates_respelt (h : Respelt v w) :
    relates op (some ⟨w, a⟩) c = relates op (some ⟨v, a⟩) c := by
  have hpresent : present op a w c = present op a v c := by
    have hsingle : single op a w c = single op a v c := single_respelt h
    cases h with
    | array values =>
        rw [present, present]
        rw [any_single_respelt values, any_single_respelt values]
    | _ => exact hsingle
  rw [relates, relates, h.isNull_eq, hpresent]

end Comparison

/-! ## Resolution -/

namespace Path

/-- Two results that are related, or two errors. -/
abbrev Found {α : Type} (related : α → α → Prop) : Except Error α → Except Error α → Prop :=
  Parallel (fun _ _ => True) related

/-- What is collected is respelt if what has been found is. -/
theorem forall₂_spread {v w : Json} (h : Respelt v w) :
    List.Forall₂ Respelt (spread v) (spread w) := by
  cases h with
  | null => exact .nil
  | array values => exact values
  | bool b => exact .cons (.bool b) .nil
  | number n => exact .cons (.number n) .nil
  | string s => exact .cons (.string s) .nil
  | object keys values perm => exact .cons (.object keys values perm) .nil

section

variable {path path' name name' : String} {next next' : Attribute → Json → Except Error Json}

mutual

/-- Names that are alike lead on to the same member, respelt. -/
theorem found_descendInto (hname : Text.alike name name' = true)
    (hnext : ∀ s v w, Respelt v w → v.KeyedOnce → Found Respelt (next s v) (next' s w))
    (a : Attribute) : ∀ v w : Json, Respelt v w → v.KeyedOnce →
      Found Respelt (descendInto path name next a v) (descendInto path' name' next' a w)
  | .null, _, h, _ => by
      cases h
      exact .ok .null
  | .bool _, _, h, _ | .number _, _, h, _ | .string _, _, h, _ => by
      cases h
      exact .error trivial
  | .object members, _, h, hkeys => by
      cases h with
      | @object _ renamed members' keys values perm =>
          rw [descendInto, descendInto, ← Attribute.sub?_congr hname]
          cases a.sub? name with
          | none => exact .error trivial
          | some s =>
              dsimp only
              rcases Members.named?_respelt hkeys.distinct
                (Json.forall₂_respeltMember keys values) perm s.name with
                ⟨hnone, hnone'⟩ | ⟨m, hm, w, hsome, hsome', hrespelt⟩
              · rw [hnone, hnone']
                exact .ok .null
              · rw [hsome, hsome']
                exact hnext s m.2 w hrespelt (hkeys.member m hm)
  | .array items, _, h, hkeys => by
      cases h with
      | @array _ items' values =>
          exact (found_descendIntoAll hname hnext a items items' values hkeys.item).bind
            fun _ _ hfound => .ok (.array hfound)
termination_by structural v => v

theorem found_descendIntoAll (hname : Text.alike name name' = true)
    (hnext : ∀ s v w, Respelt v w → v.KeyedOnce → Found Respelt (next s v) (next' s w))
    (a : Attribute) : ∀ items items' : List Json, List.Forall₂ Respelt items items' →
      (∀ v ∈ items, v.KeyedOnce) →
      Found (List.Forall₂ Respelt) (descendIntoAll path name next a items)
        (descendIntoAll path' name' next' a items')
  | [], _, .nil, _ => .ok .nil
  | v :: rest, w :: rest', .cons h hrest, hkeys => by
      obtain ⟨hv, hkeys⟩ := List.forall_mem_cons.mp hkeys
      refine (found_descendInto hname hnext a v w h hv).bind fun _ _ hfound => ?_
      refine (found_descendIntoAll hname hnext a rest rest' hrest hkeys).bind fun _ _ hothers => ?_
      exact .ok (List.rel_append (forall₂_spread hfound) hothers)
termination_by structural items => items

end

/-- Names that are alike lead to the same value, respelt. -/
theorem found_descend {accept accept' : Acceptance} {names names' : List String}
    (h : names.map Text.folded = names'.map Text.folded) (a : Attribute) (v w : Json)
    (hv : Respelt v w) (hkeys : v.KeyedOnce) :
    Found Respelt (descend accept path (names.map .name) a v)
      (descend accept' path' (names'.map .name) a w) := by
  induction names generalizing names' a v w with
  | nil =>
      obtain rfl := List.map_eq_nil_iff.mp h.symm
      exact .ok hv
  | cons name rest ih =>
      cases names' with
      | nil => cases h
      | cons name' rest' =>
          obtain ⟨hname, hrest⟩ := List.cons.inj h
          exact found_descendInto (Text.alike_iff.mpr hname)
            (fun s x y hxy hx => ih hrest s x y hxy hx) a v w hv hkeys

/-- Names that are alike lead to the same attribute. -/
theorem found_target {names names' : List String}
    (h : names.map Text.folded = names'.map Text.folded) (a : Attribute) :
    Found Eq (target path a (names.map .name)) (target path' a (names'.map .name)) := by
  induction names generalizing names' a with
  | nil =>
      obtain rfl := List.map_eq_nil_iff.mp h.symm
      exact .ok rfl
  | cons name rest ih =>
      cases names' with
      | nil => cases h
      | cons name' rest' =>
          obtain ⟨hname, hrest⟩ := List.cons.inj h
          rw [List.map_cons, List.map_cons, target, target,
            ← Attribute.sub?_congr (Text.alike_iff.mpr hname)]
          cases a.sub? name with
          | none => exact .error trivial
          | some s => exact ih hrest s

/-- Paths without brackets that are alike lead to the same attribute and value, respelt. -/
theorem found_resolveBy {accept accept' : Acceptance} (halike : Text.alike path path' = true)
    (hplain : '[' ∉ path.toList) (a : Attribute) {v w : Json} (hv : Respelt v w)
    (hkeys : v.KeyedOnce) :
    Found (fun d e => e.descriptor = d.descriptor ∧ Respelt d.value e.value)
      (Filter.Tree.resolveBy accept path a v) (Filter.Tree.resolveBy accept' path' a w) := by
  rcases compile_alike halike hplain Filter.defaultMaxLength Filter.defaultMaxLength with
    ⟨hnone, hnone'⟩ | ⟨names, names', hsteps, hsteps', hnames⟩
  · obtain ⟨e, he⟩ := error_of_toOption hnone
    obtain ⟨e', he'⟩ := error_of_toOption hnone'
    rw [Filter.Tree.resolveBy, Filter.Tree.resolveBy, he, he']
    exact .error trivial
  · rw [Filter.Tree.resolveBy, Filter.Tree.resolveBy, hsteps, hsteps', ok_bind, ok_bind, follow,
      follow]
    refine (found_target hnames a).bind fun t _ heq => ?_
    subst heq
    exact (found_descend hnames a v w hv hkeys).bind fun _ _ hfound => .ok ⟨rfl, hfound⟩

end

end Path

/-! ## Filters -/

namespace Filter

/-- The same token but for the case of a path. -/
structure Token.Respelt (t t' : Token) : Prop where
  kind : t'.kind = t.kind
  detail : t'.detail = t.detail
  path : t.kind = .path → Text.alike t.text t'.text = true
  text : t.kind ≠ .path → t'.text = t.text

/-- The same tree but for the case of its paths. -/
inductive Tree.Respelt : Tree → Tree → Prop where
  | nil : Respelt .nil .nil
  | node {t t' : Token} {l l' r r' : Tree} (ht : t.Respelt t') (hl : Respelt l l')
      (hr : Respelt r r') : Respelt (.node t l r) (.node t' l' r')

namespace Tree

variable {x y : Tree} {meaning meaning' : Meaning}

theorem Respelt.isNil_eq (h : x.Respelt y) : y.isNil = x.isNil := by
  cases h <;> rfl

theorem Respelt.constant?_eq (h : x.Respelt y) : y.constant? = x.constant? := by
  cases h with
  | nil => rfl
  | node ht => simp only [constant?, Token.constant?, ht.detail]

/-- A leaf is a path without a bracket, in another case, or no path. -/
theorem Respelt.path?_cases (h : x.Respelt y)
    (hplain : x.Forall fun t => t.kind = .path → '[' ∉ t.text.toList) :
    (x.path? = none ∧ y.path? = none) ∨ ∃ path path', x.path? = some path ∧ y.path? = some path' ∧
      Text.alike path path' = true ∧ '[' ∉ path.toList := by
  cases h with
  | nil => exact .inl ⟨rfl, rfl⟩
  | @node t t' l l' r r' ht _ _ =>
      by_cases hkind : t.kind = .path
      · exact .inr ⟨t.text, t'.text, by rw [path?, if_pos hkind],
          by rw [path?, if_pos (ht.kind.trans hkind)], ht.path hkind, hplain.1 hkind⟩
      · exact .inl ⟨by rw [path?, if_neg hkind], by rw [path?, if_neg (ht.kind ▸ hkind)]⟩

/-- A tree is as true as one with its paths in another case, if what the paths lead to is assigned
and related as before. -/
theorem Respelt.eval_eq (h : x.Respelt y)
    (hplain : x.Forall fun t => t.kind = .path → '[' ∉ t.text.toList)
    (hpresent : ∀ path path', Text.alike path path' = true → '[' ∉ path.toList →
      isPresent meaning' path' = isPresent meaning path)
    (hrelates : ∀ path path' op c, Text.alike path path' = true → '[' ∉ path.toList →
      Comparison.relates op (meaning' path') c = Comparison.relates op (meaning path) c) :
    y.eval meaning' = x.eval meaning := by
  induction h with
  | nil => rfl
  | @node t t' l l' r r' ht hl hr ihl ihr =>
      obtain ⟨_, hplainl, hplainr⟩ := hplain
      have hoperator : t'.operator? = t.operator? := by
        simp only [Token.operator?, ht.detail]
      have hpr : l'.path?.any (isPresent meaning') = l.path?.any (isPresent meaning) := by
        rcases hl.path?_cases hplainl with ⟨hnone, hnone'⟩ | ⟨path, path', hp, hp', halike, hfree⟩
        · rw [hnone, hnone']
          rfl
        · rw [hp, hp']
          exact hpresent path path' halike hfree
      rw [eval, eval, hoperator, hl.isNil_eq, hr.isNil_eq, ihl hplainl, ihr hplainr, hpr,
        hr.constant?_eq]
      cases t.operator? with
      | none => rfl
      | some op =>
          cases op
          case and | or | not | pr => rfl
          -- every other operator compares what the path on the left leads to
          all_goals
            rcases hl.path?_cases hplainl with
              ⟨hnone, hnone'⟩ | ⟨path, path', hp, hp', halike, hfree⟩
            · rw [hnone, hnone']
            · rw [hp, hp']
              cases r.constant? with
              | none => rfl
              | some c => exact hrelates path path' _ c halike hfree

end Tree

end Filter

/-- A filter whose paths have no bracket accepts a value whatever the case of its paths and of the
keys in the value, if no two keys of an object in it are alike. -/
theorem accepts_respelt {schema : Schema} {tree tree' : Filter.Tree} {v w : Json}
    (htree : tree.Respelt tree')
    (hplain : tree.Forall fun t => t.kind = .path → '[' ∉ t.text.toList)
    (hv : Respelt v w) (hkeys : v.KeyedOnce) :
    tree'.accepts schema.root w = tree.accepts schema.root v := by
  have hfound : ∀ path path', Text.alike path path' = true → '[' ∉ path.toList →
      Path.Found (fun d e => e.descriptor = d.descriptor ∧ Respelt d.value e.value)
        (Filter.Tree.resolveBy (Filter.Tree.acceptsWithin tree.longestPath) path schema.root v)
        (Filter.Tree.resolveBy (Filter.Tree.acceptsWithin tree'.longestPath) path' schema.root w) :=
    fun path path' halike hfree => Path.found_resolveBy halike hfree schema.root hv hkeys
  rw [Filter.Tree.accepts, Filter.Tree.accepts, Filter.Tree.acceptsWithin,
    Filter.Tree.acceptsWithin]
  refine htree.eval_eq hplain (fun path path' halike hfree => ?present)
    fun path path' op c halike hfree => ?relates
  case present =>
      rcases (hfound path path' halike hfree).toOption with
        ⟨hnone, hnone'⟩ | ⟨⟨d, a⟩, ⟨e, a'⟩, hsome, hsome', heq, hrespelt⟩
      · rw [Filter.Tree.isPresent, Filter.Tree.isPresent, hnone, hnone']
      · obtain rfl : a' = a := heq
        rw [Filter.Tree.isPresent, Filter.Tree.isPresent, hsome, hsome']
        exact Attribute.isAssigned_respelt a' d e hrespelt
  case relates =>
      rcases (hfound path path' halike hfree).toOption with
        ⟨hnone, hnone'⟩ | ⟨⟨d, a⟩, ⟨e, a'⟩, hsome, hsome', heq, hrespelt⟩
      · rw [hnone, hnone']
      · obtain rfl : a' = a := heq
        rw [hsome, hsome']
        exact Comparison.relates_respelt hrespelt

/-- A filter finds the member of a group also if both are in another case, with the key `MEMBERS` in
front of `displayName`. -/
theorem accepts_respelt_group :
    let tree (path : String) : Filter.Tree :=
      .node (.ofOperator "eq" .eq) (.leaf (.path path)) (.leaf ⟨"\"u1\"", .constant,
        .constant (.string "u1")⟩)
    let v : Json := .object
      [("displayName", .string "Staff"), ("members", .array [.object [("value", .string "u1")]])]
    let w : Json := .object
      [("MEMBERS", .array [.object [("Value", .string "u1")]]), ("displayName", .string "Staff")]
    Filter.read 30 "members.value eq \"u1\"" = .ok (tree "members.value") ∧
      Filter.read 30 "Members.VALUE eq \"u1\"" = .ok (tree "Members.VALUE") ∧
      Respelt v w ∧ v.KeyedOnce ∧
      (tree "members.value").accepts Schema.group.root v = true ∧
      (tree "Members.VALUE").accepts Schema.group.root w = true := by
  intro tree v w
  have hmember : Respelt (.object [("value", .string "u1")]) (.object [("Value", .string "u1")]) :=
    @Respelt.object _ [("Value", .string "u1")] _ (by decide) (.cons (.string "u1") .nil) (.refl _)
  have hv : Respelt v w :=
    @Respelt.object _
      [("displayName", .string "Staff"), ("MEMBERS", .array [.object [("Value", .string "u1")]])] _
      (by decide) (.cons (.string "Staff") (.cons (.array (.cons hmember .nil)) .nil)) (.swap ..)
  have hvalue : (Json.object [("value", .string "u1")]).KeyedOnce :=
    .object (by decide) (List.forall_mem_singleton.mpr (.string "u1"))
  have hkeys : v.KeyedOnce :=
    .object (by decide) (List.forall_mem_cons.mpr ⟨.string "Staff",
      List.forall_mem_singleton.mpr (.array (List.forall_mem_singleton.mpr hvalue))⟩)
  have htree : (tree "members.value").Respelt (tree "Members.VALUE") := by
    refine .node ⟨rfl, rfl, nofun, fun _ => rfl⟩ (.node ⟨rfl, rfl, fun _ => ?_, nofun⟩ .nil .nil)
      (.node ⟨rfl, rfl, nofun, fun _ => rfl⟩ .nil .nil)
    decide
  have hplain : (tree "members.value").Forall fun t => t.kind = .path → '[' ∉ t.text.toList :=
    ⟨nofun, ⟨fun _ => by decide, trivial, trivial⟩, ⟨nofun, trivial, trivial⟩⟩
  have haccepts : (tree "members.value").accepts Schema.group.root v = true := by decide +kernel
  exact ⟨rfl, rfl, hv, hkeys, haccepts,
    (accepts_respelt htree hplain hv hkeys).trans haccepts⟩

end Scim
