import Scim.Proofs.Evaluation.Collected
import Scim.Proofs.Json.Respelling
import Scim.Proofs.Path.Composition
import Scim.Proofs.Validation.Resolution
import Scim.Service

/-!
# Presence of complex attributes

A complex attribute is present in a resource exactly if one of its sub-attributes is
(`Service.accepts_presence_iff`).  The path of the attribute leads to a value that is tested member
by member.  The path of a sub-attribute leads on from there and collects (`Path.descend_append`),
and what is collected is tested item by item.

So both tests search the same members of the same objects (`Attribute.isAssigned_iff_sub`).  Arrays
make no difference, since an attribute and the twin that describes its elements agree on what is
assigned (`Attribute.isAssigned_element`).  An object must not have two members under one name: the
test of the object takes each of them in, while a path takes one.
-/

namespace Scim

open Scim.Path (Acceptance Step descend descendInto descendIntoAll spread)

variable {a b s : Attribute} {v w : Json} {items : List Json} {accept : Acceptance} {path : String}

/-! ## Assigned values -/

/-- If keys are distinct then every member is the one under its name. -/
theorem Members.DistinctKeys.named?_of_mem {members : Members} {key name : String}
    (h : members.DistinctKeys) (hmem : (key, v) ∈ members) (halike : Text.alike key name = true) :
    members.named? name = some v := by
  have hunder : (key, v) ∈ members.under name := List.mem_filter.mpr ⟨hmem, halike⟩
  rcases h.under_cases name with hnone | ⟨m, hone, hm⟩
  · rw [hnone] at hunder
    cases hunder
  · rw [hone] at hunder
    rw [← Members.named?_under, hone, Members.named?_singleton hm, ← List.mem_singleton.mp hunder]

namespace Attribute

mutual

/-- An attribute and its single-valued twin agree on what is assigned. -/
theorem isAssigned_singleValued (a : Attribute) :
    ∀ v, a.singleValued.isAssigned v = a.isAssigned v
  | .null | .bool _ | .number _ | .string _ => rfl
  | .array items => by
      rw [isAssigned, isAssigned, element_of_single rfl]
      unfold element
      split
      case isTrue => rfl
      case isFalse => exact isAnyAssigned_singleValued a items
  | .object members => by
      rw [isAssigned, isAssigned, isAnyMemberAssigned_eq_any, isAnyMemberAssigned_eq_any]
      rfl
termination_by structural v => v

theorem isAnyAssigned_singleValued (a : Attribute) :
    ∀ items, a.singleValued.isAnyAssigned items = a.isAnyAssigned items
  | [] => rfl
  | v :: rest => by
      rw [isAnyAssigned, isAnyAssigned, isAssigned_singleValued a v,
        isAnyAssigned_singleValued a rest]
termination_by structural items => items

end

/-- An attribute and the description of its elements agree on what is assigned. -/
theorem isAssigned_element (a : Attribute) (v : Json) :
    a.element.isAssigned v = a.isAssigned v := by
  unfold element
  split
  case isTrue => exact isAssigned_singleValued a v
  case isFalse => rfl

theorem isAssigned_array (a : Attribute) (items : List Json) :
    a.isAssigned (.array items) = items.any a.isAssigned := by
  rw [isAssigned, isAnyAssigned_eq_any]
  exact congrArg items.any (funext (isAssigned_element a))

/-- What a value adds to an array is assigned if the value is. -/
theorem any_spread (a : Attribute) (v : Json) : (spread v).any a.isAssigned = a.isAssigned v := by
  cases v with
  | array items => exact (isAssigned_array a items).symm
  | null => rfl
  | bool | number | string | object => exact Bool.or_false _

/-- An object is assigned if what it has under the name of a sub-attribute is. -/
theorem isAssigned_object_iff (hsound : a.Sound) (hcomplex : a.isComplex = true) {members : Members}
    (hkeys : members.DistinctKeys) :
    a.isAssigned (.object members) = true ↔
      ∃ s ∈ a.subAttributes, s.isAssigned (members.valueOf s.name) = true := by
  rw [isAssigned, if_pos hcomplex, isAnyMemberAssigned_eq_any, List.any_eq_true]
  constructor
  · rintro ⟨⟨key, v⟩, hm, hassigned⟩
    cases hs : a.sub? key with
    | none =>
        rw [hs] at hassigned
        cases hassigned
    | some s =>
        rw [hs] at hassigned
        obtain ⟨hmem, halike⟩ := mem_of_sub? hs
        have hnamed := hkeys.named?_of_mem hm ((Text.alike_comm ..).trans halike)
        refine ⟨s, hmem, ?_⟩
        rw [Members.valueOf_of_named? hnamed]
        exact hassigned
  · rintro ⟨s, hs, hassigned⟩
    cases hnamed : members.named? s.name with
    | none =>
        rw [Members.valueOf, hnamed] at hassigned
        cases hassigned
    | some v =>
        obtain ⟨key, halike, hm⟩ := Members.mem_of_named? hnamed
        rw [Members.valueOf_of_named? hnamed] at hassigned
        refine ⟨(key, v), hm, ?_⟩
        rw [sub?_congr halike, hsound.sub?_of_mem hs]
        exact hassigned

mutual

/-- A value is assigned if one of its sub-attributes leads from it to one that is. -/
theorem isAssigned_iff_sub (hsound : a.Sound) (hcomplex : a.isComplex = true) :
    ∀ v : Json, v.KeyedOnce →
      (∀ s ∈ a.subAttributes, ∃ w, descend accept path [.name s.name] a v = .ok w) →
      (a.isAssigned v = true ↔ ∃ s ∈ a.subAttributes, ∃ w,
        descend accept path [.name s.name] a v = .ok w ∧ s.isAssigned w = true)
  | .null, _, _ => by
      refine iff_of_false Bool.false_ne_true ?_
      rintro ⟨s, _, w, hw, hassigned⟩
      cases hw
      cases hassigned
  | .bool _, _, h | .number _, _, h | .string _, _, h => by
      obtain ⟨s, hs⟩ := List.exists_mem_of_ne_nil _ (hsound.complex.mp hcomplex)
      obtain ⟨w, hw⟩ := h s hs
      cases hw
  | .object members, hkeys, _ => by
      rw [isAssigned_object_iff hsound hcomplex hkeys.distinct]
      refine exists_congr fun s => and_congr_right fun hs => ?_
      rw [descend, Path.descendInto_object (hsound.sub?_of_mem hs)]
      simp [descend]
  | .array items, hkeys, h => by
      have hall := any_isAssigned_iff_sub hsound hcomplex items hkeys.item fun s hs => by
        obtain ⟨w, hw⟩ := h s hs
        rw [descend, descendInto] at hw
        obtain ⟨found, hfound, _⟩ := ok_of_bind hw
        exact ⟨found, hfound⟩
      rw [isAssigned_array, hall]
      refine exists_congr fun s => and_congr_right fun _ => ?_
      rw [descend, descendInto]
      constructor
      · rintro ⟨found, hfound, hassigned⟩
        rw [hfound]
        exact ⟨_, rfl, (isAssigned_array s found).trans hassigned⟩
      · rintro ⟨w, hw, hassigned⟩
        obtain ⟨found, hfound, hw⟩ := ok_of_bind hw
        cases hw
        exact ⟨found, hfound, (isAssigned_array s found).symm.trans hassigned⟩
termination_by structural v => v

theorem any_isAssigned_iff_sub (hsound : a.Sound) (hcomplex : a.isComplex = true) :
    ∀ items : List Json, (∀ v ∈ items, v.KeyedOnce) →
      (∀ s ∈ a.subAttributes, ∃ found,
        descendIntoAll path s.name (descend accept path []) a items = .ok found) →
      (items.any a.isAssigned = true ↔ ∃ s ∈ a.subAttributes, ∃ found,
        descendIntoAll path s.name (descend accept path []) a items = .ok found ∧
          found.any s.isAssigned = true)
  | [], _, _ => by
      refine iff_of_false Bool.false_ne_true ?_
      rintro ⟨s, _, found, hfound, hassigned⟩
      cases hfound
      cases hassigned
  | v :: rest, hkeys, h => by
      obtain ⟨hv, hrest⟩ := List.forall_mem_cons.mp hkeys
      have hparts : ∀ s ∈ a.subAttributes, (∃ w, descend accept path [.name s.name] a v = .ok w) ∧
          ∃ found, descendIntoAll path s.name (descend accept path []) a rest = .ok found := by
        intro s hs
        obtain ⟨found, hfound⟩ := h s hs
        rw [descendIntoAll] at hfound
        obtain ⟨w, hw, hfound⟩ := ok_of_bind hfound
        obtain ⟨others, hothers, _⟩ := ok_of_bind hfound
        exact ⟨⟨w, hw⟩, others, hothers⟩
      rw [List.any_cons, Bool.or_eq_true,
        isAssigned_iff_sub hsound hcomplex v hv fun s hs => (hparts s hs).1,
        any_isAssigned_iff_sub hsound hcomplex rest hrest fun s hs => (hparts s hs).2,
        ← exists_or]
      refine exists_congr fun s => ?_
      rw [← and_or_left]
      refine and_congr_right fun hs => ?_
      obtain ⟨⟨w, hw⟩, others, hothers⟩ := hparts s hs
      have hfound : descendIntoAll path s.name (descend accept path []) a (v :: rest) =
          .ok (spread w ++ others) := by
        rw [descendIntoAll]
        show (descend accept path [.name s.name] a v >>= _) = _
        rw [hw, ok_bind, hothers, ok_bind]
      simp only [hw, hothers, hfound, Except.ok.injEq, exists_eq_left', List.any_append,
        any_spread, Bool.or_eq_true]
termination_by structural items => items

end

end Attribute

/-! ## Chains -/

namespace Schema

/-- A chain leads on to every sub-attribute, and passes its name last. -/
theorem follow_concat {chain : List Nat} {position : Nat} (h : follow a chain = some b)
    (hs : b.subAttributes[position]? = some s) :
    follow a (chain ++ [position]) = some s ∧
      a.namesAlong (chain ++ [position]) = a.namesAlong chain ++ [s.name] := by
  induction chain generalizing a with
  | nil =>
      cases h
      rw [List.nil_append, follow_cons_of_some hs, Attribute.namesAlong,
        namesAlong_cons_of_some hs, Attribute.namesAlong]
      exact ⟨rfl, rfl⟩
  | cons first rest ih =>
      obtain ⟨t, ht, hrest⟩ := exists_of_follow_cons h
      obtain ⟨hfollow, hnames⟩ := ih hrest
      rw [List.cons_append, follow_cons_of_some ht, namesAlong_cons_of_some ht,
        namesAlong_cons_of_some ht, hnames]
      exact ⟨hfollow, rfl⟩

/-- A chain from a sound attribute leads to a sound one. -/
theorem sound_of_follow {chain : List Nat} (hsound : a.Sound) (h : follow a chain = some b) :
    b.Sound := by
  induction chain generalizing a with
  | nil =>
      cases h
      exact hsound
  | cons first rest ih =>
      obtain ⟨t, ht, hrest⟩ := exists_of_follow_cons h
      exact ih (hsound.sub (List.mem_of_getElem? ht)) hrest

end Schema

/-! ## What paths lead to -/

namespace Path

variable {name : String} {next : Attribute → Json → Except Error Json}

mutual

theorem keyedOnce_descendInto (h : ∀ s v w, v.KeyedOnce → next s v = .ok w → w.KeyedOnce) :
    ∀ v w, v.KeyedOnce → descendInto path name next a v = .ok w → w.KeyedOnce
  | .null, _, _, hw => by
      cases hw
      exact .null
  | .bool _, _, _, hw | .number _, _, _, hw | .string _, _, _, hw => nomatch hw
  | .object members, w, hkeys, hw => by
      rw [descendInto] at hw
      split at hw
      case h_2 => cases hw
      case h_1 s _ =>
          split at hw
          case h_1 v hnamed =>
              obtain ⟨key, _, hm⟩ := Members.mem_of_named? hnamed
              exact h s v w (hkeys.member _ hm) hw
          case h_2 =>
              cases hw
              exact .null
  | .array items, _, hkeys, hw => by
      obtain ⟨found, hfound, hw⟩ := ok_of_bind hw
      cases hw
      exact .array (keyedOnce_descendIntoAll h items found hkeys.item hfound)
termination_by structural v => v

theorem keyedOnce_descendIntoAll (h : ∀ s v w, v.KeyedOnce → next s v = .ok w → w.KeyedOnce) :
    ∀ items found, (∀ v ∈ items, v.KeyedOnce) →
      descendIntoAll path name next a items = .ok found → ∀ w ∈ found, w.KeyedOnce
  | [], _, _, hfound => by
      cases hfound
      exact fun _ hw => absurd hw List.not_mem_nil
  | v :: rest, _, hkeys, hfound => by
      obtain ⟨hv, hrest⟩ := List.forall_mem_cons.mp hkeys
      obtain ⟨w, hw, hfound⟩ := ok_of_bind hfound
      obtain ⟨others, hothers, hfound⟩ := ok_of_bind hfound
      cases hfound
      have hkeyed := keyedOnce_descendInto h v w hv hw
      refine List.forall_mem_append.mpr
        ⟨?_, keyedOnce_descendIntoAll h rest others hrest hothers⟩
      cases w with
      | null => exact fun _ hx => absurd hx List.not_mem_nil
      | array items => exact hkeyed.item
      | bool | number | string | object => exact List.forall_mem_singleton.mpr hkeyed
termination_by structural items => items

end

/-- Names lead to values whose keys are distinct if those of the value are. -/
theorem keyedOnce_descend (names : List String) (hkeys : v.KeyedOnce)
    (h : descend accept path (names.map .name) a v = .ok w) : w.KeyedOnce := by
  induction names generalizing a v w with
  | nil =>
      cases h
      exact hkeys
  | cons name rest ih => exact keyedOnce_descendInto (fun _ _ _ => ih) v w hkeys h

end Path

/-! ## Tests of presence -/

/-- The filter that tests whether what a path leads to is present. -/
def Filter.Tree.presence (path : String) : Tree :=
  .node (.ofOperator "pr" .pr) (.leaf (.path path)) .nil

theorem Filter.Tree.accepts_presence (path : String) (a : Attribute) (v : Json) :
    (presence path).accepts a v =
      isPresent (fun name =>
        (resolveBy (acceptsWithin (presence path).longestPath) name a v).toOption) path := by
  have hop : (Token.ofOperator "pr" .pr).operator? = some .pr := rfl
  rw [accepts, acceptsWithin, presence, eval, hop]
  exact Option.any_some

namespace Service

variable {schema : Schema} {r : Resource} {chain : List Nat}

/-- An attribute is present if what the names on the way to it lead to is assigned. -/
theorem accepts_presence_at {accept : Acceptance} {path : String} (h : schema.Accepted)
    (hplain : ∀ n ∈ schema.root.namesAlong chain, Path.IsPlain n) (hne : chain ≠ [])
    (ha : Schema.follow schema.root chain = some a)
    (hw : descend accept path ((schema.root.namesAlong chain).map .name) schema.root r.toJson =
      .ok w) :
    accepts schema (.presence a.path) r = a.isAssigned w := by
  have hcompile : Path.compile Filter.defaultMaxLength a.path =
      .ok ((schema.root.namesAlong chain).map .name) := by
    rw [h.path_eq hne ha]
    exact Path.compile_dotted (fun n hn => (hplain n hn).isName)
      (Schema.namesAlong_ne_nil ha hne)
  have htarget : Path.target a.path schema.root ((schema.root.namesAlong chain).map .name) =
      .ok a := (Path.target_names_iff h.sound).mpr ⟨chain, ha, rfl⟩
  let tree := Filter.Tree.presence a.path
  have hdescend : descend (Filter.Tree.acceptsWithin tree.longestPath) a.path
      ((schema.root.namesAlong chain).map .name) schema.root r.toJson = .ok w :=
    ok_of_toOption ((Path.toOption_descend _ _).trans (congrArg Except.toOption hw))
  have hresolve : Filter.Tree.resolveBy (Filter.Tree.acceptsWithin tree.longestPath) a.path
      schema.root r.toJson = .ok ⟨w, a⟩ := by
    rw [Filter.Tree.resolveBy, hcompile, ok_bind, Path.follow, htarget, ok_bind, hdescend, ok_bind]
  rw [accepts, Filter.Tree.accepts_presence, Filter.Tree.isPresent, hresolve]
  rfl

/-- In a resource that the check of types accepts, and in which no object has two keys that are
alike, a complex attribute is present exactly if one of its sub-attributes is. -/
theorem accepts_presence_iff (h : schema.Accepted)
    (hplain : ∀ n ∈ schema.root.namesAlong chain, Path.IsPlain n)
    (hsubs : ∀ s ∈ a.subAttributes, Path.IsPlain s.name)
    (hr : Validation.checkTypes schema r = .ok ()) (hkeys : r.toJson.KeyedOnce)
    (hne : chain ≠ []) (ha : Schema.follow schema.root chain = some a)
    (hcomplex : a.isComplex = true) :
    accepts schema (.presence a.path) r = true ↔
      ∃ s ∈ a.subAttributes, accepts schema (.presence s.path) r = true := by
  have hconforms := Validation.conforms_of_checkTypes h hr
  obtain ⟨w, hw, _⟩ := Path.exists_descend Filter.Tree.accepts a.path h.sound hconforms ha
  have htarget : Path.target a.path schema.root ((schema.root.namesAlong chain).map .name) =
      .ok a := (Path.target_names_iff h.sound).mpr ⟨chain, ha, rfl⟩
  have hsub : ∀ s ∈ a.subAttributes, ∃ u,
      descend Filter.Tree.accepts a.path [.name s.name] a w = .ok u ∧
        accepts schema (.presence s.path) r = s.isAssigned u := by
    intro s hs
    obtain ⟨position, hposition⟩ := List.mem_iff_getElem?.mp hs
    obtain ⟨hfollow, hnames⟩ := Schema.follow_concat ha hposition
    obtain ⟨u, hu, _⟩ := Path.exists_descend Filter.Tree.accepts a.path h.sound hconforms hfollow
    have hplain' : ∀ n ∈ schema.root.namesAlong (chain ++ [position]), Path.IsPlain n := by
      rw [hnames]
      exact List.forall_mem_append.mpr ⟨hplain, List.forall_mem_singleton.mpr (hsubs s hs)⟩
    refine ⟨u, ?_, accepts_presence_at h hplain' (by simp) hfollow hu⟩
    have happend : (descend Filter.Tree.accepts a.path
        ((schema.root.namesAlong chain ++ [s.name]).map .name) schema.root r.toJson).toOption =
          (descend Filter.Tree.accepts a.path ((schema.root.namesAlong chain).map .name)
            schema.root r.toJson).toOption >>= fun v =>
              (descend Filter.Tree.accepts a.path [.name s.name] a v).toOption :=
      Path.descend_append htarget r.toJson
    rw [← hnames, hu, hw] at happend
    exact ok_of_toOption happend.symm
  have hkeyed : w.KeyedOnce := Path.keyedOnce_descend _ hkeys hw
  rw [accepts_presence_at h hplain hne ha hw,
    Attribute.isAssigned_iff_sub (Schema.sound_of_follow h.sound ha) hcomplex w hkeyed
      fun s hs => (hsub s hs).imp fun _ hu => hu.1]
  refine exists_congr fun s => and_congr_right fun hs => ?_
  obtain ⟨u, hu, hpresent⟩ := hsub s hs
  rw [hpresent, hu]
  simp only [Except.ok.injEq, exists_eq_left']

/-- In a group with a member that is `null`, one that is blank and one that is described by
`display` only, the members are present, and so is a sub-attribute of theirs. -/
theorem accepts_presence_iff_members :
    let r : Resource := ⟨[("displayName", .string "Ops"),
      ("members", .array [.null, .object [("value", .string "")],
        .object [("display", .string "Babs")]])]⟩
    ∃ a, Schema.follow Schema.group.root [1] = some a ∧ a.path = "members" ∧
      a.isComplex = true ∧ (∀ n ∈ Schema.group.root.namesAlong [1], Path.IsPlain n) ∧
      (∀ s ∈ a.subAttributes, Path.IsPlain s.name) ∧
      Validation.checkTypes Schema.group r = .ok () ∧ r.toJson.KeyedOnce ∧
      Filter.read 20 "members pr" = .ok (.presence "members") ∧
      accepts Schema.group (.presence "members") r = true ∧
      ∃ s ∈ a.subAttributes, accepts Schema.group (.presence s.path) r = true := by
  intro r
  obtain ⟨a, ha, hpath, hcomplex, hsubs⟩ : ∃ a, Schema.follow Schema.group.root [1] = some a ∧
      a.path = "members" ∧ a.isComplex = true ∧ ∀ s ∈ a.subAttributes, Path.IsPlain s.name :=
    ⟨_, rfl, by decide +kernel, rfl, by decide +kernel⟩
  have hplain : ∀ n ∈ Schema.group.root.namesAlong [1], Path.IsPlain n := by decide +kernel
  have hr : Validation.checkTypes Schema.group r = .ok () := rfl
  have hone : ∀ key x, (Json.object [(key, .string x)]).KeyedOnce := fun key x =>
    .object (List.pairwise_singleton _ _) (List.forall_mem_singleton.mpr (.string x))
  have hmembers : ∀ v ∈ [Json.null, .object [("value", .string "")],
      .object [("display", .string "Babs")]], v.KeyedOnce := by
    simp [Json.KeyedOnce.null, hone]
  have hkeys : r.toJson.KeyedOnce :=
    .object (by decide) (List.forall_mem_cons.mpr ⟨.string "Ops",
      List.forall_mem_singleton.mpr (.array hmembers)⟩)
  have hpresent : accepts Schema.group (.presence "members") r = true := by decide +kernel
  have hiff := accepts_presence_iff (.built Schema.build_group) hplain hsubs hr hkeys
    (List.cons_ne_nil _ _) ha hcomplex
  rw [hpath] at hiff
  exact ⟨a, ha, hpath, hcomplex, hplain, hsubs, hr, hkeys, rfl, hpresent, hiff.mp hpresent⟩

end Service

end Scim
