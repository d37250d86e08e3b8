import Scim.Proofs.Patch.Descent

/-!
# Changes stay where they are addressed

An operation whose path starts with a name of a top-level attribute reads and writes nothing but
the members under that name.

The reason is the same for every form of an operation, so it is stated once.  A change *acts at* a
name if it looks up the value of the name, decides what becomes of the slot (an `Effect`) or fails,
and then does that to the slot.  Every step of a path acts at the name of its sub-attribute
(`Context.actsAt_along`), and so does every operation (`Operation.Addresses.actsAt`).

Whatever acts at a name has the same outcome on resources with the same members under the name,
and keeps the members apart from it.  Two changes that act at names which are not alike can be made
in either order (`ActsAt.comm`).
-/

namespace Scim.Patch

/-- What becomes of a slot. -/
inductive Effect where
  | keep
  | put (v : Json)
  | remove

/-- The members after an effect on the slot of a key. -/
def Effect.on (key : String) (members : Members) : Effect → Members
  | keep => members
  | put v => members.put key v
  | remove => members.remove key

/-- A change that reads nothing but the value of a name and writes nothing but its slot. -/
def ActsAt (name : String) (change : Members → Except Error Members) : Prop :=
  ∃ effect : Option Json → Except Error Effect, ∀ members,
    change members = (effect (members.named? name)).map (Effect.on (members.slot name) members)

/-- An operation whose path, if it is one, starts with the name of an attribute. -/
structure Operation.Addresses (limit : Nat) (root : Attribute) (o : Operation) (a : Attribute) :
    Prop where
  /-- The operation has a path. -/
  placed : o.place.isEmpty = false
  /-- The first step of the path is a name of the attribute. -/
  first : ∀ steps, Path.compile limit o.place = .ok steps →
    ∃ name rest, steps = .name name :: rest ∧ root.sub? name = some a

variable {a s : Attribute} {key name name' : String} {members other changed : Members}

/-! ## Effects -/

namespace Effect

theorem apart_on (h : Text.alike key name = true) (effect : Effect) (members : Members) :
    (effect.on key members).apart name = members.apart name := by
  cases effect with
  | keep => rfl
  | put v => exact Members.apart_put h v members
  | remove => exact Members.apart_remove h members

theorem under_on_of_not_alike (h : Text.alike key name = false) (effect : Effect)
    (members : Members) : (effect.on key members).under name = members.under name := by
  cases effect with
  | keep => rfl
  | put v => exact Members.under_put_of_not_alike h v members
  | remove => exact Members.under_remove_of_not_alike h members

/-- In order, what an effect leaves under a name is told by what was under it. -/
theorem under_on (h : Text.alike key name = true)
    (hordered : members.InOrder) (effect : Effect) :
    (effect.on key members).under name = effect.on key (members.under name) := by
  cases effect with
  | keep => rfl
  | put v => exact Members.under_put h hordered v
  | remove => exact Members.under_remove key name members

theorem inOrder_on (hordered : members.InOrder) (effect : Effect) :
    (effect.on key members).InOrder := by
  cases effect with
  | keep => exact hordered
  | put v => exact hordered.put key v
  | remove => exact hordered.remove key

/-- Effects on different keys can come in either order. -/
theorem on_comm {key key' : String} (h : key ≠ key')
    (hordered : members.InOrder) (effect effect' : Effect) :
    effect.on key (effect'.on key' members) = effect'.on key' (effect.on key members) := by
  cases effect with
  | keep => rfl
  | put v =>
      cases effect' with
      | keep => rfl
      | put w => exact Members.put_put_comm h v w members
      | remove => exact (Members.remove_put_comm h hordered v).symm
  | remove =>
      cases effect' with
      | keep => rfl
      | put w => exact Members.remove_put_comm h.symm hordered w
      | remove => exact Members.remove_remove_comm key key' members

end Effect

/-! ## Changes that act at a name -/

namespace ActsAt

variable {change change' : Members → Except Error Members}

/-- The members apart from the name are kept. -/
theorem apart_eq (h : ActsAt name change) (hchange : change members = .ok changed) :
    changed.apart name = members.apart name := by
  obtain ⟨effect, heffect⟩ := h
  rw [heffect] at hchange
  cases hfound : effect (members.named? name) with
  | error cause =>
      rw [hfound] at hchange
      cases hchange
  | ok e =>
      rw [hfound] at hchange
      cases hchange
      exact e.apart_on (Members.alike_slot members name) members

/-- Members in order stay in order. -/
theorem inOrder (h : ActsAt name change) (hordered : members.InOrder)
    (hchange : change members = .ok changed) : changed.InOrder := by
  obtain ⟨effect, heffect⟩ := h
  rw [heffect] at hchange
  obtain ⟨e, _, rfl⟩ := ok_of_map hchange
  exact e.inOrder_on hordered

/-- The outcome is told by the members under the name. -/
theorem under_congr (h : ActsAt name change) (hmembers : members.InOrder)
    (hother : other.InOrder) (hsame : other.under name = members.under name) :
    (change other).map (·.under name) = (change members).map (·.under name) := by
  obtain ⟨effect, heffect⟩ := h
  rw [heffect, heffect, Members.named?_congr hsame, Members.slot_congr hsame]
  cases effect (members.named? name) with
  | error cause => rfl
  | ok e =>
      have halike := Members.alike_slot members name
      simp only [Except.map, e.under_on halike hother, e.under_on halike hmembers, hsame]

/-- What is done to the slot of another name does not matter for a change. -/
theorem eq_after {effect : Option Json → Except Error Effect}
    (h : ∀ members, change members =
      (effect (members.named? name)).map (Effect.on (members.slot name) members))
    (hname : Text.alike name' name = false) (effect' : Effect) (members : Members) :
    change (effect'.on (members.slot name') members) =
      (effect (members.named? name)).map
        (Effect.on (members.slot name) (effect'.on (members.slot name') members)) := by
  have hslot : Text.alike (members.slot name') name = false :=
    Text.not_alike_of_alike (Members.alike_slot members name') hname
  have hunder := effect'.under_on_of_not_alike hslot members
  rw [h, Members.named?_congr hunder, Members.slot_congr hunder]

/-- Changes at names that are not alike can be made in either order. -/
theorem comm (h : ActsAt name change) (h' : ActsAt name' change')
    (hname : Text.alike name name' = false) (hordered : members.InOrder) :
    (change members >>= change').toOption = (change' members >>= change).toOption := by
  obtain ⟨effect, heffect⟩ := h
  obtain ⟨effect', heffect'⟩ := h'
  have hname' : Text.alike name' name = false := by rw [Text.alike_comm, hname]
  have hslots : members.slot name ≠ members.slot name' := by
    intro heq
    have hslot := Text.not_alike_of_alike (Members.alike_slot members name) hname
    rw [heq, Members.alike_slot] at hslot
    cases hslot
  rw [heffect members, heffect' members]
  cases hv : effect (members.named? name) with
  | error cause =>
      cases hv' : effect' (members.named? name') with
      | error cause' => rfl
      | ok e' =>
          have hafter := eq_after heffect hname' e' members
          rw [hv] at hafter
          exact (congrArg Except.toOption hafter).symm
  | ok e =>
      have hafter' := eq_after heffect' hname e members
      cases hv' : effect' (members.named? name') with
      | error cause' =>
          rw [hv'] at hafter'
          exact congrArg Except.toOption hafter'
      | ok e' =>
          have hafter := eq_after heffect hname' e' members
          rw [hv'] at hafter'
          rw [hv] at hafter
          refine (congrArg Except.toOption hafter').trans
            (Eq.trans ?_ (congrArg Except.toOption hafter).symm)
          exact congrArg some (Effect.on_comm hslots.symm hordered e' e)

end ActsAt

/-! ## Steps of a path -/

namespace Context

/-- What becomes of a slot when steps go on below the value in it. -/
def below (c : Context) (s : Attribute) (next : Path.Step) (rest : List Path.Step) (found : Json) :
    Except Error Effect := do
  match ← c.openSlot s found with
  | .done => .ok .keep
  | .value (.object inner) => do
      let changed ← c.along s inner next rest
      .ok (.put (.object changed))
  | .value (.array items) => do
      let changed ← c.throughArray s items (next :: rest)
      .ok (.put (.array changed))
  | .value v => .error (c.shapeError s.name v)

theorem actsAt_addTo (c : Context) (s : Attribute) : ActsAt s.name (c.addTo s) := by
  by_cases hmulti : s.multiValued = true
  · refine ⟨fun found => .ok (.put (.array
      (appendAllNew ((found.bind Json.array?).getD []) (incoming c.value)))), fun members => ?_⟩
    simp only [addTo, if_pos hmulti, Members.get?_slot]
    rfl
  by_cases hcomplex : s.isComplex = true
  · cases hvalue : c.value with
    | object fields =>
        refine ⟨fun found => (merge c.path s ((found.bind Json.object?).getD []) fields).map
          fun merged => .put (.object merged), fun members => ?_⟩
        simp only [addTo, if_neg hmulti, if_pos hcomplex, hvalue, Members.get?_slot]
        cases merge c.path s (((members.named? s.name).bind Json.object?).getD []) fields <;> rfl
    | _ =>
        refine ⟨fun _ => .error (.invalidModification (.complexNeedsObject s.name)),
          fun members => ?_⟩
        simp only [addTo, if_neg hmulti, if_pos hcomplex, hvalue]
        rfl
  · refine ⟨fun _ => .ok (.put c.value), fun members => ?_⟩
    simp only [addTo, if_neg hmulti, if_neg hcomplex]
    rfl

theorem actsAt_change (c : Context) (s : Attribute) : ActsAt s.name (c.change s) := by
  unfold change
  cases c.verb with
  | add => exact actsAt_addTo c s
  | remove => exact ⟨fun _ => .ok .remove, fun _ => rfl⟩
  | replace =>
      refine ⟨fun _ => .ok (if c.value.isNull then .remove else .put c.value), fun members => ?_⟩
      dsimp only
      split <;> rfl

/-- The steps of a path act at the name of the sub-attribute that the first one leads to. -/
theorem actsAt_along (c : Context) (hs : a.sub? name = some s) (rest : List Path.Step) :
    ActsAt s.name fun members => c.along a members (.name name) rest := by
  cases rest with
  | nil =>
      have hlast : (fun members => c.along a members (.name name) []) = c.change s := by
        funext members
        simp only [along, last, hs]
      rw [hlast]
      exact actsAt_change c s
  | cons next rest =>
      refine ⟨fun found => c.below s next rest (found.getD .null), fun members => ?_⟩
      dsimp only
      rw [along_cons hs, Members.valueOf]
      unfold below
      cases c.openSlot s ((members.named? s.name).getD .null) with
      | error cause => rfl
      | ok slot =>
          cases slot with
          | done => rfl
          | value v =>
              cases v with
              | object inner =>
                  show (c.along s inner next rest >>= _) =
                    Except.map _ (c.along s inner next rest >>= _)
                  cases c.along s inner next rest <;> rfl
              | array items =>
                  show (c.throughArray s items (next :: rest) >>= _) =
                    Except.map _ (c.throughArray s items (next :: rest) >>= _)
                  cases c.throughArray s items (next :: rest) <;> rfl
              | _ => rfl

end Context

/-! ## Operations -/

/-- An operation acts at the name of the attribute that it addresses. -/
theorem Operation.Addresses.actsAt {limit : Nat} {o : Operation} (h : o.Addresses limit a s) :
    ActsAt s.name fun members => o.apply limit a members := by
  cases hcompile : Path.compile limit o.place with
  | error cause =>
      refine ⟨fun _ => .error (.path cause), fun members => ?_⟩
      simp only [Operation.apply, h.placed, hcompile]
      rfl
  | ok steps =>
      obtain ⟨name, rest, rfl, hs⟩ := h.first steps hcompile
      have happly : (fun members => o.apply limit a members) =
          fun members => Context.along ⟨o.verb, o.place, o.value⟩ a members (.name name) rest := by
        funext members
        simp only [Operation.apply, h.placed, hcompile]
        rfl
      rw [happly]
      exact Context.actsAt_along _ hs rest

/-- Under every accepted schema, the outcome of an operation at a top-level attribute is
told by the members under its name, the other members are kept, and operations at different
top-level attributes can be performed in either order. -/
theorem local_of_accepted {schema : Schema} (hschema : schema.Accepted) (limit : Nat) :
    ∀ a ∈ schema.attributes,
      (∀ (o : Operation) (members : Members), o.Addresses limit schema.root a → members.InOrder →
        (∀ other : Members, other.InOrder → other.under a.name = members.under a.name →
          (o.apply limit schema.root other).map (·.under a.name) =
            (o.apply limit schema.root members).map (·.under a.name)) ∧
        ∀ changed, o.apply limit schema.root members = .ok changed →
          changed.apart a.name = members.apart a.name) ∧
      ∀ b ∈ schema.attributes, a ≠ b → ∀ (o p : Operation) (members : Members),
        o.Addresses limit schema.root a → p.Addresses limit schema.root b → members.InOrder →
        (o.apply limit schema.root members >>= (p.apply limit schema.root ·)).toOption =
          (p.apply limit schema.root members >>= (o.apply limit schema.root ·)).toOption := by
  have hsound := hschema.sound
  intro a ha
  constructor
  · intro o members ho hmembers
    constructor
    · intro other hother hsame
      exact ho.actsAt.under_congr hmembers hother hsame
    · intro changed hchanged
      exact ho.actsAt.apart_eq hchanged
  · intro b hb hne o p members ho hp hordered
    have hname : Text.alike a.name b.name = false :=
      Bool.eq_false_iff.mpr fun halike => hne (hsound.eq_of_alike ha hb halike)
    exact ho.actsAt.comm hp.actsAt hname hordered

/-- The path of an operation, once it is known, tells what the operation addresses. -/
theorem Operation.Addresses.of_compile {limit : Nat} {o : Operation} {path : String}
    {rest : List Path.Step} (hplace : o.place = path) (hpath : path.isEmpty = false)
    (hcompile : Path.compile limit path = .ok (.name name :: rest)) (hs : a.sub? name = some s) :
    o.Addresses limit a s := by
  subst hplace
  refine ⟨hpath, fun steps hsteps => ?_⟩
  rw [hcompile] at hsteps
  cases hsteps
  exact ⟨name, rest, rfl, hs⟩

/-- A group is renamed and a member leaves it, in either order. -/
theorem local_of_accepted_group :
    let before : Members := [("displayName", .string "Ops"),
      ("members", .array [.object [("value", .string "u1")], .object [("value", .string "u2")]])]
    let rename : Operation := ⟨.replace, some "displayName", .string "Operators"⟩
    let leave : Operation := ⟨.remove, some "members[value eq \"u1\"]", .null⟩
    let limit := Filter.defaultMaxLength
    ∃ label ∈ Schema.group.attributes, ∃ crew ∈ Schema.group.attributes, label ≠ crew ∧
      rename.Addresses limit Schema.group.root label ∧
      leave.Addresses limit Schema.group.root crew ∧ before.InOrder ∧
      (∀ changed, leave.apply limit Schema.group.root before = .ok changed →
        changed.apart crew.name = before.apart crew.name) ∧
      (rename.apply limit Schema.group.root before >>=
          (leave.apply limit Schema.group.root ·)).toOption =
        (leave.apply limit Schema.group.root before >>=
          (rename.apply limit Schema.group.root ·)).toOption := by
  intro before rename leave limit
  obtain ⟨label, hlabel, hlabelName⟩ : ∃ s, Schema.group.root.sub? "displayName" = some s ∧
      s.name = "displayName" := ⟨_, rfl, rfl⟩
  obtain ⟨crew, hcrew, hcrewName⟩ : ∃ s, Schema.group.root.sub? "members" = some s ∧
      s.name = "members" := ⟨_, rfl, rfl⟩
  obtain ⟨hlabelMem, _⟩ := Attribute.mem_of_sub? hlabel
  obtain ⟨hcrewMem, _⟩ := Attribute.mem_of_sub? hcrew
  have hne : label ≠ crew := by
    intro heq
    rw [heq, hcrewName] at hlabelName
    exact absurd hlabelName (by decide)
  have hrename : rename.Addresses limit Schema.group.root label := by
    have hplace : rename.place = "displayName" := by decide +kernel
    have hcompile : Path.compile Filter.defaultMaxLength "displayName" =
        .ok [.name "displayName"] := rfl
    exact .of_compile hplace (by decide) hcompile hlabel
  have hleave : leave.Addresses limit Schema.group.root crew := by
    have hplace : leave.place = "members[value eq \"u1\"]" := by decide +kernel
    obtain ⟨tree, hcompile⟩ : ∃ tree, Path.compile Filter.defaultMaxLength
        "members[value eq \"u1\"]" = .ok [.name "members", .filter tree] := ⟨_, rfl⟩
    exact .of_compile hplace (by decide) hcompile hcrew
  have hordered : before.InOrder := List.pairwise_pair.mpr (by decide)
  have hgroup : Schema.group.Accepted := .built Schema.build_group
  obtain ⟨_, hcomm⟩ := local_of_accepted hgroup limit label hlabelMem
  obtain ⟨hlocal, _⟩ := local_of_accepted hgroup limit crew hcrewMem
  obtain ⟨_, hapart⟩ := hlocal leave before hleave hordered
  exact ⟨label, hlabelMem, crew, hcrewMem, hne, hrename, hleave, hordered, hapart,
    hcomm crew hcrewMem hne rename leave before hrename hleave hordered⟩

end Scim.Patch
