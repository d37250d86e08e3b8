import Scim.Evaluation.Acceptance
import Scim.Proofs.Patch.Descent
import Scim.Service

/-!
# Reading back a change

An operation goes down to a slot and a path goes down to a value, each in its own way.  Both find
the same place.  After a value has been put into the slot of an attribute, the path leads to that
value, and every path that parts from it on the way leads where it led before.

The names of a path *lead* to an attribute if those before the last one are names of single-valued
complex attributes and the operation can go on in what they hold (`Leads`).  What one name does is
told by `Context.along_through`; the rest is an induction on how the names lead
(`Context.along_leads`).
-/

namespace Scim.Patch

/-- The members in which an operation goes on below a value. -/
inductive Opens : Verb → Json → Members → Prop where
  /-- The members of an object. -/
  | held (verb : Verb) (inner : Members) : Opens verb (.object inner) inner
  /-- The members of the object that an addition makes. -/
  | made : Opens .add .null []

/-- A name and those after it lead an operation from an attribute with the given members to an
attribute below it, through single-valued complex attributes. -/
inductive Leads (verb : Verb) : Attribute → Members → String → List String → Attribute → Prop where
  | last {a t : Attribute} {members : Members} {name : String} (ht : a.sub? name = some t) :
      Leads verb a members name [] t
  | through {a s t : Attribute} {members inner : Members} {name next : String}
      {rest : List String} (hs : a.sub? name = some s) (hsingle : s.multiValued = false)
      (hcomplex : s.isComplex = true) (hopens : Opens verb (members.valueOf s.name) inner)
      (h : Leads verb s inner next rest t) : Leads verb a members name (next :: rest) t

/-- The operation puts the value itself into the slot of the attribute. -/
def Sets (verb : Verb) (v : Json) (t : Attribute) : Prop :=
  verb = .replace ∧ v.isNull = false ∨
    verb = .add ∧ t.multiValued = false ∧ t.isComplex = false

/-- Names that differ somewhere, whatever their case, before either list ends. -/
inductive Part : List String → List String → Prop where
  | here {name other : String} {names others : List String}
      (h : Text.alike name other = false) : Part (name :: names) (other :: others)
  | later {name other : String} {names others : List String}
      (h : Text.alike name other = true) (hpart : Part names others) :
      Part (name :: names) (other :: others)

/-- Names part unless one list is the start of the other. -/
theorem Part.of_neither_starts {names others : List String}
    (h : ¬ names.map Text.folded <+: others.map Text.folded)
    (h' : ¬ others.map Text.folded <+: names.map Text.folded) : Part names others := by
  induction names generalizing others with
  | nil => exact absurd List.nil_prefix h
  | cons name names ih =>
      cases others with
      | nil => exact absurd List.nil_prefix h'
      | cons other others =>
          cases halike : Text.alike name other with
          | false => exact .here halike
          | true =>
              have hfolded := Text.alike_iff.mp halike
              simp only [List.map_cons, hfolded, List.prefix_cons_inj] at h h'
              exact .later halike (ih h h')

variable {a s t : Attribute} {members inner changed : Members} {name next path : String}
  {names rest others : List String} {accept : Path.Acceptance} {v : Json}

/-! ## Reading -/

/-- Whether an object is there or has to be made, names lead to the same below it. -/
theorem Opens.follow_eq {verb : Verb} (h : Opens verb v inner) (hne : others ≠ []) :
    Path.follow accept path (others.map .name) a (.object inner) =
      Path.follow accept path (others.map .name) a v := by
  cases h with
  | held => rfl
  | made =>
      obtain ⟨other, others, rfl⟩ := List.exists_cons_of_ne_nil hne
      rw [List.map_cons]
      cases hs : a.sub? other with
      | none => rw [Path.follow_missing hs, Path.follow_missing hs]
      | some s =>
          rw [Path.follow_object hs, Path.follow_null hs]
          rfl

/-- What is put into the slot of an attribute is found under its name. -/
theorem follow_put_slot (hs : a.sub? name = some s) (rest : List Path.Step) :
    Path.follow accept path (.name name :: rest) a
        (.object (members.put (members.slot s.name) v)) =
      Path.follow accept path rest s v := by
  rw [Path.follow_object hs, Members.valueOf, Members.named?_put_slot]
  rfl

/-- What is put into the slot of an attribute is not found under another name. -/
theorem follow_put_other {other : String} (hs : a.sub? name = some s)
    (hother : Text.alike name other = false) (rest : List Path.Step) :
    Path.follow accept path (.name other :: rest) a
        (.object (members.put (members.slot s.name) v)) =
      Path.follow accept path (.name other :: rest) a (.object members) := by
  cases hs' : a.sub? other with
  | none => rw [Path.follow_missing hs', Path.follow_missing hs']
  | some s' =>
      obtain ⟨_, hname⟩ := Attribute.mem_of_sub? hs
      obtain ⟨_, hname'⟩ := Attribute.mem_of_sub? hs'
      have hslot : Text.alike (members.slot s.name) s'.name = false := by
        have hkey := Text.alike_trans (Members.alike_slot members s.name) hname
        have hkey' := Text.not_alike_of_alike hkey hother
        rw [Text.alike_comm] at hkey' ⊢
        exact Text.not_alike_of_alike hname' hkey'
      rw [Path.follow_object hs', Path.follow_object hs', Members.valueOf,
        Members.named?_put hslot, Members.valueOf]

/-! ## Writing -/

namespace Context

variable {c : Context}

theorem change_of_sets (h : Sets c.verb c.value t) (members : Members) :
    c.change t members = .ok (members.put (members.slot t.name) c.value) := by
  rcases h with ⟨hverb, hvalue⟩ | ⟨hverb, hsingle, hsimple⟩
  · rw [change, hverb]
    dsimp only
    rw [hvalue, if_neg Bool.false_ne_true]
  · rw [change, hverb]
    dsimp only
    rw [addTo, hsingle, hsimple]
    rfl

/-- A missing object is opened as an empty one. -/
theorem openSlot_of_opens (hsingle : s.multiValued = false) (hcomplex : s.isComplex = true)
    (h : Opens c.verb v inner) : c.openSlot s v = .ok (.value (.object inner)) := by
  generalize hverb : c.verb = verb at h
  cases h with
  | held => rfl
  | made =>
      rw [openSlot, hverb]
      simp [Json.isNull, hsingle, hcomplex, Attribute.zeroValue]

/-- A name of a single-valued complex attribute leads into the object that it holds. -/
theorem along_through (hs : a.sub? name = some s) (hsingle : s.multiValued = false)
    (hcomplex : s.isComplex = true) (hopens : Opens c.verb (members.valueOf s.name) inner)
    (step : Path.Step) (rest : List Path.Step) :
    c.along a members (.name name) (step :: rest) =
      (c.along s inner step rest).map fun changed =>
        members.put (members.slot s.name) (.object changed) :=
  along_object hs (openSlot_of_opens hsingle hcomplex hopens) step rest

/-- An operation that puts a value where its names lead succeeds.  The names then lead to the
value, and names that part from them lead where they led before. -/
theorem along_leads (h : Leads c.verb a members name rest t) (hsets : Sets c.verb c.value t) :
    ∃ changed, c.along a members (.name name) (rest.map .name) = .ok changed ∧
      ∀ (accept : Path.Acceptance) (path : String),
        Path.follow accept path ((name :: rest).map .name) a (.object changed) =
            .ok ⟨c.value, t⟩ ∧
          ∀ others : List String, Part (name :: rest) others →
            Path.follow accept path (others.map .name) a (.object changed) =
              Path.follow accept path (others.map .name) a (.object members) := by
  induction h with
  | @last a t members name ht =>
      refine ⟨members.put (members.slot t.name) c.value, ?_, fun accept path => ⟨?_, ?_⟩⟩
      · simp only [List.map_nil, along, last, ht]
        exact change_of_sets hsets members
      · exact follow_put_slot ht []
      · intro others hpart
        cases hpart with
        | here hother => exact follow_put_other ht hother _
        | later _ hpart => cases hpart
  | @through a s t members inner name next rest hs hsingle hcomplex hopens _ ih =>
      obtain ⟨changed, halong, hreads⟩ := ih hsets
      refine ⟨members.put (members.slot s.name) (.object changed), ?_, fun accept path => ?_⟩
      · rw [List.map_cons, along_through hs hsingle hcomplex hopens, halong]
        rfl
      · obtain ⟨hfound, hframe⟩ := hreads accept path
        constructor
        · rw [List.map_cons, follow_put_slot hs]
          exact hfound
        · intro others hpart
          cases hpart with
          | here hother => exact follow_put_other hs hother _
          | @later _ other _ others halike hpart =>
              have hs' : a.sub? other = some s := Attribute.sub?_congr halike ▸ hs
              have hne : others ≠ [] := by
                rintro rfl
                cases hpart
              rw [List.map_cons, follow_put_slot hs', Path.follow_object hs', hframe others hpart,
                hopens.follow_eq hne]

end Context

end Scim.Patch

namespace Scim.Service

open Scim.Patch

/-- The members after a request are those after its operations. -/
theorem apply_of_patch {service : Service} {schema : Schema} {r r' : Resource}
    {request : Patch.Request} (h : service.patch schema r request = .ok r') :
    ∃ members, applyAll service.limits.maxFilterLength schema.root 0 r.members
      request.operations = .ok members ∧ r' = ⟨members⟩ := by
  unfold patch at h
  split at h
  case isTrue => cases h
  case isFalse =>
      obtain ⟨members, happly, h⟩ := ok_of_bind h
      cases h
      unfold Patch.Request.apply at happly
      split at happly
      case isTrue => exact ⟨members, happly, rfl⟩
      case isFalse => cases happly

/-- After a request has put one value where joined names lead, the path leads to that value, and
every path of names of which neither is the start of the other leads where it led before. -/
theorem resolve_patched {service : Service} {schema : Schema} {r r' : Resource}
    {request : Patch.Request} {verb : Verb} {v : Json} {name : String} {rest : List String}
    {t : Attribute} (hplain : ∀ n ∈ name :: rest, Path.IsPlain n)
    (hleads : Leads verb schema.root r.members name rest t) (hsets : Sets verb v t)
    (hone : request.operations = [⟨verb, some (".".intercalate (name :: rest)), v⟩])
    (h : service.patch schema r request = .ok r') :
    Path.resolve (".".intercalate (name :: rest)) schema.root r'.toJson = .ok ⟨v, t⟩ ∧
      ∀ (path : String) (others : List String),
        Path.compile Filter.defaultMaxLength path = .ok (others.map .name) →
        ¬ (name :: rest).map Text.folded <+: others.map Text.folded →
        ¬ others.map Text.folded <+: (name :: rest).map Text.folded →
        Path.resolve path schema.root r'.toJson = Path.resolve path schema.root r.toJson := by
  have hnames : ∀ n ∈ name :: rest, Path.IsName n.toList := fun n hn => (hplain n hn).isName
  obtain ⟨changed, halong, hreads⟩ :=
    Context.along_leads (c := ⟨verb, ".".intercalate (name :: rest), v⟩) hleads hsets
  have hafter : r'.toJson = .object changed := by
    obtain ⟨members, happly, rfl⟩ := apply_of_patch h
    rw [hone, applyAll, apply_dotted hnames, halong] at happly
    cases happly
    rfl
  constructor
  · rw [hafter, Path.resolve, Filter.Tree.resolveBy,
      Path.compile_dotted hnames (List.cons_ne_nil _ _)]
    exact (hreads _ _).1
  · intro path others hcompile hstart hstart'
    rw [hafter, Path.resolve, Path.resolve, Filter.Tree.resolveBy, Filter.Tree.resolveBy, hcompile]
    exact (hreads _ _).2 others (.of_neither_starts hstart hstart')

/-- A user without a name is given one, and keeps the user name. -/
theorem resolve_patched_user :
    let service : Service := ⟨[Schema.user], {}⟩
    let before : Resource := ⟨[("userName", .string "bjensen")]⟩
    let request : Patch.Request :=
      .ofOperations [⟨.add, some "name.givenName", .string "Barbara"⟩]
    ∃ t after, (∀ n ∈ ["name", "givenName"], Path.IsPlain n) ∧
      Leads .add Schema.user.root before.members "name" ["givenName"] t ∧
      Sets .add (.string "Barbara") t ∧ service.patch Schema.user before request = .ok after ∧
      Path.resolve "name.givenName" Schema.user.root after.toJson =
        .ok ⟨.string "Barbara", t⟩ ∧
      Path.resolve "userName" Schema.user.root after.toJson =
        Path.resolve "userName" Schema.user.root before.toJson := by
  intro service before request
  obtain ⟨s, t, hs, hsingle, hcomplex, hname, ht, hsets⟩ :
      ∃ s t : Attribute, Schema.user.root.sub? "name" = some s ∧ s.multiValued = false ∧
        s.isComplex = true ∧ s.name = "name" ∧ s.sub? "givenName" = some t ∧
        Sets .add (.string "Barbara") t :=
    ⟨_, _, rfl, rfl, rfl, rfl, rfl, .inr ⟨rfl, rfl, rfl⟩⟩
  have hplain : ∀ n ∈ ["name", "givenName"], Path.IsPlain n := by
    intro n hn
    rcases List.mem_pair.mp hn with rfl | rfl
    · decide
    · decide
  have hopens : Opens .add (before.members.valueOf s.name) [] := by
    rw [hname]
    exact .made
  have hleads : Leads .add Schema.user.root before.members "name" ["givenName"] t :=
    .through hs hsingle hcomplex hopens (.last ht)
  obtain ⟨after, hafter⟩ : ∃ after, service.patch Schema.user before request = .ok after :=
    ⟨_, rfl⟩
  obtain ⟨hfound, hframe⟩ := resolve_patched hplain hleads hsets rfl hafter
  refine ⟨t, after, hplain, hleads, hsets, hafter, hfound, ?_⟩
  exact hframe "userName" ["userName"] rfl (by decide) (by decide)

end Scim.Service
