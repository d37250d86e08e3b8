import Scim.Proofs.Evaluation.ValueFilters

/-!
# Removals

What has been removed is not found any more, and to remove it again changes nothing.

The names before the last one of a dotted path lead to the value in which the last one is looked up
(`Through`).  If that is an object, or if there is nothing, then the path leads to `null`
afterwards.  A resource may also hold an array there, although the attribute has one value.  The
name is then removed from all of its elements, and the path collects their values, of which none is
left.

A removal takes away the one key that a name stands for.  So all this is told of objects in which
the name is spelt once.
-/

namespace Scim

/-- Whether at most one key is like a name. -/
def Members.SpeltOnce (members : Members) (name : String) : Prop :=
  (members.under name).length ≤ 1

instance (members : Members) (name : String) : Decidable (members.SpeltOnce name) :=
  inferInstanceAs (Decidable ((members.under name).length ≤ 1))

namespace Json

/-- The objects in which a name below a value is looked up. -/
def holders : Json → List Members
  | .object members => [members]
  | .array items => items.filterMap object?
  | _ => []

/-- An object without the member that a name stands for. -/
def without : Json → String → Json
  | .object members, name => .object (Members.remove (Members.slot members name) members)
  | v, _ => v

end Json

variable {a b s t : Attribute} {members inner changed : Members} {name first path : String}
  {front rest : List String} {items made : List Json} {v : Json} {accept : Path.Acceptance}
  {limit : Nat}

/-! ## Members -/

namespace Members

/-- After a removal no key is like the name, if there was one at most. -/
theorem under_remove_slot (h : members.SpeltOnce name) :
    (members.remove (members.slot name)).under name = [] := by
  cases hkey : members.key? name with
  | none =>
      rw [remove_slot_of_key? hkey]
      exact named?_eq_none_iff.mp (named?_eq_none hkey)
  | some key =>
      obtain ⟨v, hget⟩ := exists_of_key? hkey
      have hmem : (key, v) ∈ members.under name :=
        List.mem_filter.mpr ⟨mem_of_get? hget, alike_of_key? hkey⟩
      obtain ⟨m, hm⟩ := List.length_eq_one_iff.mp (le_antisymm h (List.length_pos_of_mem hmem))
      rw [hm, List.mem_singleton] at hmem
      rw [under_remove, slot_of_key? hkey, hm, ← hmem]
      simp [remove]

theorem key?_of_under (h : members.under name = []) : members.key? name = none := by
  rw [← key?_under, h]
  rfl

theorem valueOf_of_under (h : members.under name = []) : members.valueOf name = .null :=
  valueOf_eq_null (key?_of_under h)

theorem remove_slot_of_under (h : members.under name = []) :
    members.remove (members.slot name) = members :=
  remove_slot_of_key? (key?_of_under h)

end Members

/-! ## Names -/

/-- Names of single-valued complex attributes lead from an attribute to one below it. -/
inductive Through : Attribute → List String → Attribute → Prop where
  | here (a : Attribute) : Through a [] a
  | step {a s t : Attribute} {name : String} {rest : List String} (hs : a.sub? name = some s)
      (hsingle : s.multiValued = false) (hcomplex : s.isComplex = true) (h : Through s rest t) :
      Through a (name :: rest) t

/-- Below `null` the names lead to `null`. -/
theorem Through.follow_null (h : Through a front b) (rest : List Path.Step) :
    Path.follow accept path (front.map .name ++ rest) a .null =
      Path.follow accept path rest b .null := by
  induction h with
  | here => rfl
  | step hs _ _ _ ih => rw [List.map_cons, List.cons_append, Path.follow_null hs, ih]

/-! ## Elements -/

/-- Elements from which a name has been removed have no values of it. -/
theorem valuesIn_without (h : ∀ holder ∈ (Json.array items).holders, holder.SpeltOnce t.name) :
    t.valuesIn (items.map (·.without t.name)) = [] := by
  rw [Attribute.valuesIn, List.flatMap_map, List.flatMap_eq_nil_iff]
  intro v hv
  cases v with
  | object members =>
      have hholder : members ∈ (Json.array items).holders :=
        List.mem_filterMap.mpr ⟨_, hv, rfl⟩
      show Path.spread (Members.valueOf (Members.remove _ members) t.name) = []
      rw [Members.valueOf_of_under (Members.under_remove_slot (h members hholder))]
      rfl
  | _ => rfl

namespace Patch.Context

variable {c : Context}

theorem last_remove (hverb : c.verb = .remove) (ht : a.sub? name = some t) :
    c.last a members (.name name) = .ok (members.remove (members.slot t.name)) := by
  rw [last, ht]
  dsimp only
  rw [change, hverb]

/-- A removal from an element that is an object. -/
theorem lastInElement_remove (hverb : c.verb = .remove) (ht : a.sub? name = some t) :
    c.lastInElement a (.name name) (.object members) =
      .ok ((Json.object members).without t.name) := by
  rw [lastInElement, last_remove hverb ht]
  rfl

/-- A removal from all elements succeeds if they are objects. -/
theorem throughArray_remove (hverb : c.verb = .remove) (ht : a.sub? name = some t)
    (h : c.throughArray a items [.name name] = .ok made) :
    AreObjects items ∧ made = items.map (·.without t.name) := by
  have ht' : a.element.sub? name = some t := by rw [Attribute.sub?_element, ht]
  have hmap := throughArray_name.symm.trans h
  have hobjects : AreObjects items := by
    intro v hv
    obtain ⟨w, hw⟩ := ok_of_mapM hmap v hv
    cases v with
    | object members => exact ⟨members, rfl⟩
    | _ => cases hw
  have hmade : ∀ v ∈ items,
      c.lastInElement a.element (.name name) v = .ok (v.without t.name) := by
    intro v hv
    obtain ⟨members, rfl⟩ := hobjects v hv
    exact lastInElement_remove hverb ht'
  rw [mapM_eq_map hmade] at hmap
  exact ⟨hobjects, (Except.ok.inj hmap).symm⟩

/-- Below an array, a name that has been removed leads to no values, and a second removal changes
nothing. -/
theorem array_removed (hverb : c.verb = .remove) (ht : a.sub? name = some t)
    (h : c.throughArray a items [.name name] = .ok made)
    (honce : ∀ holder ∈ (Json.array items).holders, holder.SpeltOnce t.name) :
    (∀ accept path, Path.follow accept path [.name name] a (.array made) = .ok ⟨.array [], t⟩) ∧
      c.throughArray a made [.name name] = .ok made := by
  have ht' : a.element.sub? name = some t := by rw [Attribute.sub?_element, ht]
  obtain ⟨hobjects, rfl⟩ := throughArray_remove hverb ht h
  have hmade : ∀ w ∈ items.map (·.without t.name),
      ∃ members : Members, w = .object members ∧ members.under t.name = [] := by
    intro w hw
    obtain ⟨v, hv, rfl⟩ := List.mem_map.mp hw
    obtain ⟨members, rfl⟩ := hobjects v hv
    exact ⟨_, rfl, Members.under_remove_slot (honce members (List.mem_filterMap.mpr ⟨_, hv, rfl⟩))⟩
  constructor
  · intro accept path
    have hobjects' : AreObjects (items.map (·.without t.name)) := by
      intro w hw
      obtain ⟨members, rfl, _⟩ := hmade w hw
      exact ⟨members, rfl⟩
    rw [Path.follow_array ht hobjects', valuesIn_without honce]
  · have hagain : ∀ w ∈ items.map (·.without t.name),
        c.lastInElement a.element (.name name) w = .ok (id w) := by
      intro w hw
      obtain ⟨members, rfl, hunder⟩ := hmade w hw
      rw [lastInElement_remove hverb ht', Json.without, Members.remove_slot_of_under hunder, id]
    rw [throughArray_name, mapM_eq_map hagain, List.map_id]

/-- A removal goes on in what is there, and is done where nothing is. -/
theorem openSlot_remove {slot : Slot} (hverb : c.verb = .remove)
    (h : c.openSlot s v = .ok slot) : v = .null ∧ slot = .done ∨ slot = .value v := by
  rw [openSlot, hverb] at h
  split at h
  case isTrue hnull =>
      cases h
      cases v with
      | null => exact .inl ⟨rfl, rfl⟩
      | _ => cases hnull
  case isFalse =>
      cases h
      exact .inr rfl

/-! ## Members in which nothing is left to remove -/

/-- Names lead from members to what is left there, and a removal at them changes nothing. -/
structure Cleared (c : Context) (a : Attribute) (members : Members) (first : String)
    (rest : List String) (left : Described) : Prop where
  leads : ∀ accept path,
    Path.follow accept path ((first :: rest).map .name) a (.object members) = .ok left
  again : c.along a members (.name first) (rest.map .name) = .ok members

/-- The member of a name that was spelt once has been removed. -/
theorem cleared_last (hverb : c.verb = .remove) (ht : a.sub? name = some t)
    (honce : members.SpeltOnce t.name) :
    c.Cleared a (members.remove (members.slot t.name)) name [] ⟨.null, t⟩ := by
  have hunder := Members.under_remove_slot honce
  constructor
  · intro accept path
    rw [List.map_cons, Path.follow_object ht, Members.valueOf_of_under hunder]
    rfl
  · show c.last a _ (.name name) = _
    rw [last_remove hverb ht, Members.remove_slot_of_under hunder]

/-- Nothing is there in which the last name could be looked up. -/
theorem cleared_missing (hs : a.sub? first = some s) (hnull : members.valueOf s.name = .null)
    (hfront : Through s front b) (ht : b.sub? name = some t)
    (hagain : c.along a members (.name first) ((front ++ [name]).map .name) = .ok members) :
    c.Cleared a members first (front ++ [name]) ⟨.null, t⟩ := by
  refine ⟨fun accept path => ?_, hagain⟩
  rw [List.map_cons, Path.follow_object hs, hnull, List.map_append, hfront.follow_null]
  exact Path.follow_null ht []

/-- Members are put back in which nothing is left to remove. -/
theorem Cleared.put {left : Described} {next : String} (hs : a.sub? first = some s)
    (h : c.Cleared s inner next rest left) :
    c.Cleared a (members.put (members.slot s.name) (.object inner)) first (next :: rest) left := by
  refine ⟨fun accept path => ?_, along_put_object hs h.again⟩
  rw [List.map_cons, Path.follow_object hs, Members.valueOf_put_slot]
  exact h.leads accept path

/-- An array is put back, from whose elements a name has been removed. -/
theorem cleared_array (hverb : c.verb = .remove) (hs : a.sub? first = some s)
    (ht : s.sub? name = some t) (hmade : c.throughArray s items [.name name] = .ok made)
    (honce : ∀ holder ∈ (Json.array items).holders, holder.SpeltOnce t.name) :
    c.Cleared a (members.put (members.slot s.name) (.array made)) first [name]
      ⟨.array [], t⟩ := by
  obtain ⟨hfollow, hagain⟩ := array_removed hverb ht hmade honce
  refine ⟨fun accept path => ?_, along_put_array hs hagain⟩
  rw [List.map_cons, Path.follow_object hs, Members.valueOf_put_slot]
  exact hfollow accept path

/-- The names before the last one lead to a value.  If the last one is spelt once in the objects
there, then a removal leaves nothing to remove. -/
theorem along_removed (hverb : c.verb = .remove) (h : Through a front b)
    (ht : b.sub? name = some t) (hnames : front ++ [name] = first :: rest)
    (halong : c.along a members (.name first) (rest.map .name) = .ok changed) :
    ∃ found, (∀ accept path,
        Path.follow accept path (front.map .name) a (.object members) = .ok ⟨found, b⟩) ∧
      ((∀ holder ∈ found.holders, holder.SpeltOnce t.name) →
        c.Cleared a changed first rest
          ⟨if found.array?.isSome then .array [] else .null, t⟩) := by
  induction h generalizing members changed first rest with
  | here a =>
      cases hnames
      have hlast : c.last a members (.name name) = .ok changed := halong
      rw [last_remove hverb ht] at hlast
      cases hlast
      exact ⟨.object members, fun _ _ => rfl, fun honce =>
        cleared_last hverb ht (honce members (List.mem_singleton_self members))⟩
  | @step a s b n front hs _ _ hthrough ih =>
      rw [List.cons_append] at hnames
      obtain ⟨rfl, rfl⟩ := List.cons.inj hnames
      -- There is a name behind this one, so the way goes on.
      obtain ⟨next, others, hrest⟩ : ∃ next others, front ++ [name] = next :: others :=
        List.exists_cons_of_ne_nil (by simp)
      have hfollow : ∀ accept path,
          Path.follow accept path ((n :: front).map .name) a (.object members) =
            Path.follow accept path (front.map .name) s (members.valueOf s.name) :=
        fun _ _ => Path.follow_object hs _
      have henters := halong
      rw [hrest, List.map_cons] at henters
      cases along_iff.mp henters with
      | done hs' hopen =>
          cases hs.symm.trans hs'
          obtain ⟨hnull, _⟩ | hvalue := openSlot_remove hverb hopen
          case inr => cases hvalue
          refine ⟨.null, fun accept path => ?_, fun _ =>
            cleared_missing hs hnull hthrough ht halong⟩
          rw [hfollow, hnull, ← List.append_nil (front.map Path.Step.name)]
          exact hthrough.follow_null []
      | object hs' hopen hmade =>
          cases hs.symm.trans hs'
          obtain ⟨_, hdone⟩ | hvalue := openSlot_remove hverb hopen
          case inl => cases hdone
          obtain ⟨found, hfound, hcleared⟩ := ih ht hrest hmade
          refine ⟨found, fun accept path => ?_, fun honce => ?_⟩
          · rw [hfollow, ← Patch.Context.Slot.value.inj hvalue, hfound]
          · rw [hrest]
            exact (hcleared honce).put hs
      | @array _ _ items made hs' hopen hmade =>
          cases hs.symm.trans hs'
          obtain ⟨_, hdone⟩ | hvalue := openSlot_remove hverb hopen
          case inl => cases hdone
          -- Only one name may stand behind that of an array.
          obtain rfl : others = [] := by
            cases others with
            | nil => rfl
            | cons => cases hmade
          cases hthrough with
          | step => exact absurd (List.cons.inj hrest).2 (by simp)
          | here =>
              cases hrest
              refine ⟨.array items, fun accept path => ?_, fun honce =>
                cleared_array hverb hs ht hmade honce⟩
              rw [hfollow, ← Patch.Context.Slot.value.inj hvalue]
              rfl

end Patch.Context

namespace Patch

/-- The names before the last one of a dotted path, which are names of single-valued complex
attributes, lead to a value.  After a request has removed at the path, if the last name is spelt
once in the objects there, the path leads to `null`, or to an empty array if the value is an array,
and the same request changes nothing more. -/
theorem Request.resolve_removed {schema : Schema} {r : Resource} {path : String}
    (hpath : path = ".".intercalate (front ++ [name]))
    (hplain : ∀ n ∈ front ++ [name], Path.IsPlain n) (hfront : Through schema.root front a)
    (ht : a.sub? name = some t)
    (h : (ofOperations [⟨.remove, some path, v⟩]).apply limit schema r.members = .ok changed) :
    ∃ found, Path.follow Filter.Tree.accepts path (front.map .name) schema.root r.toJson =
        .ok ⟨found, a⟩ ∧
      ((∀ holder ∈ found.holders, holder.SpeltOnce t.name) →
        Path.resolve path schema.root (.object changed) =
            .ok ⟨if found.array?.isSome then .array [] else .null, t⟩ ∧
          (ofOperations [⟨.remove, some path, v⟩]).apply limit schema changed = .ok changed) := by
  subst hpath
  obtain ⟨first, rest, hnames⟩ : ∃ first rest, front ++ [name] = first :: rest :=
    List.exists_cons_of_ne_nil (by simp)
  rw [hnames] at hplain h ⊢
  have hnamed : ∀ n ∈ first :: rest, Path.IsName n.toList := fun n hn => (hplain n hn).isName
  rw [Request.apply_one, apply_dotted hnamed] at h
  have halong := ok_of_mapError h
  obtain ⟨found, hfollow, hafter⟩ := Context.along_removed rfl hfront ht hnames halong
  refine ⟨found, hfollow _ _, fun honce => ?_⟩
  constructor
  · rw [Path.resolve, Filter.Tree.resolveBy, Path.compile_dotted hnamed (List.cons_ne_nil _ _)]
    exact (hafter honce).leads _ _
  · rw [Request.apply_one, apply_dotted hnamed, (hafter honce).again]
    rfl

/-- The given name of a user is below one single-valued complex attribute. -/
theorem through_name : ∃ a t, Schema.user.root.sub? "name" = some a ∧ a.name = "name" ∧
    a.sub? "givenName" = some t ∧ t.name = "givenName" ∧ Through Schema.user.root ["name"] a ∧
    ∀ n ∈ ["name", "givenName"], Path.IsPlain n := by
  obtain ⟨a, t, ha, hname, ht, hname', hsingle, hcomplex⟩ : ∃ a t : Attribute,
      Schema.user.root.sub? "name" = some a ∧ a.name = "name" ∧ a.sub? "givenName" = some t ∧
        t.name = "givenName" ∧ a.multiValued = false ∧ a.isComplex = true :=
    ⟨_, _, rfl, rfl, rfl, rfl, rfl, rfl⟩
  refine ⟨a, t, ha, hname, ht, hname', .step ha hsingle hcomplex (.here a), fun n hn => ?_⟩
  rcases List.mem_pair.mp hn with rfl | rfl
  · decide
  · decide

/-- A user loses the given name and keeps the family name. -/
theorem Request.resolve_removed_givenName :
    let before : Resource := ⟨[("name", .object [("familyName", .string "Jensen"),
      ("givenName", .string "Barbara")])]⟩
    let after : Members := [("name", .object [("familyName", .string "Jensen")])]
    let request : Request := ofOperations [⟨.remove, some "name.givenName", .null⟩]
    ∃ a t, Through Schema.user.root ["name"] a ∧ a.sub? "givenName" = some t ∧
      (∀ n ∈ ["name", "givenName"], Path.IsPlain n) ∧
      request.apply Filter.defaultMaxLength Schema.user before.members = .ok after ∧
      Path.resolve "name.givenName" Schema.user.root (.object after) = .ok ⟨.null, t⟩ ∧
      request.apply Filter.defaultMaxLength Schema.user after = .ok after := by
  intro before after request
  obtain ⟨a, t, ha, hname, ht, hname', hthrough, hplain⟩ := through_name
  have hafter : request.apply Filter.defaultMaxLength Schema.user before.members = .ok after := by
    rw [Request.apply_one]
    rfl
  obtain ⟨found, hfollow, hremoved⟩ := resolve_removed rfl hplain hthrough ht hafter
  have hfound : found = .object [("familyName", .string "Jensen"),
      ("givenName", .string "Barbara")] := by
    have hobject : Path.follow Filter.Tree.accepts "name.givenName" [.name "name"]
        Schema.user.root before.toJson = _ := Path.follow_object ha []
    rw [hname] at hobject
    exact congrArg Described.value (Except.ok.inj (hfollow.symm.trans hobject))
  subst hfound
  obtain ⟨hresolve, hagain⟩ := hremoved fun holder hholder => by
    rw [List.mem_singleton.mp hholder, hname']
    decide
  exact ⟨a, t, hthrough, ht, hplain, hafter, hresolve, hagain⟩

/-- A user whose name is an array of names loses the given name in it, and the path to it then
leads to an empty array. -/
theorem Request.resolve_removed_array :
    let before : Members := [("name", .array [.object [("familyName", .string "Jensen"),
      ("givenName", .string "Barbara")]])]
    let after : Members := [("name", .array [.object [("familyName", .string "Jensen")]])]
    let request : Request := ofOperations [⟨.remove, some "name.givenName", .null⟩]
    ∃ a t, Through Schema.user.root ["name"] a ∧ a.sub? "givenName" = some t ∧
      (∀ n ∈ ["name", "givenName"], Path.IsPlain n) ∧
      request.apply Filter.defaultMaxLength Schema.user before = .ok after ∧
      Path.resolve "name.givenName" Schema.user.root (.object after) = .ok ⟨.array [], t⟩ := by
  intro before after request
  obtain ⟨a, t, ha, hname, ht, hname', hthrough, hplain⟩ := through_name
  have hafter : request.apply Filter.defaultMaxLength Schema.user before = .ok after := by
    rw [Request.apply_one]
    rfl
  have hcompile : Path.compile Filter.defaultMaxLength "name.givenName" =
      .ok [.name "name", .name "givenName"] := rfl
  have hobjects : AreObjects [.object [("familyName", .string "Jensen")]] :=
    List.forall_mem_singleton.mpr ⟨_, rfl⟩
  have hvalues : t.valuesIn [.object [("familyName", .string "Jensen")]] = [] := by
    rw [Attribute.valuesIn, List.flatMap_singleton, Attribute.valueIn, hname']
    rfl
  refine ⟨a, t, hthrough, ht, hplain, hafter, ?_⟩
  rw [Path.resolve, Filter.Tree.resolveBy, hcompile, ok_bind, Path.follow_object ha, hname]
  exact (Path.follow_array ht hobjects).trans (by rw [hvalues])

end Patch

end Scim
