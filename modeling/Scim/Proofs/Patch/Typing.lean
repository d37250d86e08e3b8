import Scim.Proofs.Patch.Descent
import Scim.Proofs.Validation.Typing

/-!
# Changes keep resources well-typed

An operation whose value suits what its path leads to turns well-typed members into well-typed
members.  `Verb.Suits` says which values suit an attribute, `Operation.Suits` which operations
suit the root of a schema.

The proof follows an operation on its way down.  What is written into a slot belongs to the one
attribute that the slot is named after, since sound attributes have distinct sub-attributes
(`TypedBelow.put`).  An array keeps its items, gains items that suit, or loses items.  The steps
of a path are taken by induction (`Context.typedBelow_along`), and so are the operations of a
request (`typedBelow_applyAll`).
-/

namespace Scim

variable {a s : Attribute} {members : Members} {key name : String} {v : Json}

/-! ## Members -/

theorem TypedBelow.nil : TypedBelow a [] := fun _ hm => absurd hm List.not_mem_nil

/-- A value that belongs to a sub-attribute may be put under any key that is its name. -/
theorem TypedBelow.put (hsound : a.Sound) (h : TypedBelow a members) (hs : s ∈ a.subAttributes)
    (hkey : Text.alike key s.name = true) (hv : WellTyped s v) :
    TypedBelow a (members.put key v) := by
  intro m hm t ht halike
  rcases Members.mem_put hm with rfl | hm
  · have hsame : Text.alike s.name t.name = true :=
      Text.alike_trans (Text.alike_comm key s.name ▸ hkey) halike
    rw [← hsound.eq_of_alike hs ht hsame]
    exact hv
  · exact h m hm t ht halike

theorem TypedBelow.put_slot (hsound : a.Sound) (h : TypedBelow a members)
    (hs : s ∈ a.subAttributes) (hv : WellTyped s v) :
    TypedBelow a (members.put (members.slot s.name) v) :=
  h.put hsound hs (Members.alike_slot members s.name) hv

theorem TypedBelow.remove (h : TypedBelow a members) : TypedBelow a (members.remove key) :=
  fun m hm t ht halike => h m (Members.mem_of_mem_remove hm) t ht halike

/-- What stands in the slot of a sub-attribute belongs to it. -/
theorem TypedBelow.get?_slot (h : TypedBelow a members) (hs : s ∈ a.subAttributes)
    (hv : members.get? (members.slot s.name) = some v) : WellTyped s v :=
  h.named? hs (Members.get?_slot members s.name ▸ hv)

/-- The items of an array in the slot of a sub-attribute are single values. -/
theorem TypedBelow.items_slot (h : TypedBelow a members) (hs : s ∈ a.subAttributes) :
    ∀ w ∈ ((members.get? (members.slot s.name)).bind Json.array?).getD [],
      WellTyped s.singleValued w := by
  intro w hw
  cases hget : members.get? (members.slot s.name) with
  | none =>
      rw [hget] at hw
      exact absurd hw List.not_mem_nil
  | some found =>
      rw [hget] at hw
      cases found with
      | array items => exact (WellTyped.array_iff.mp (h.get?_slot hs hget)).2 w hw
      | _ => exact absurd hw List.not_mem_nil

/-- The members of an object in the slot of a sub-attribute are well-typed. -/
theorem TypedBelow.below_slot (h : TypedBelow a members) (hs : s ∈ a.subAttributes) :
    TypedBelow s (((members.get? (members.slot s.name)).bind Json.object?).getD []) := by
  cases hget : members.get? (members.slot s.name) with
  | none => exact .nil
  | some found =>
      cases found with
      | object inner => exact (WellTyped.object_iff.mp (h.get?_slot hs hget)).2.2
      | _ => exact .nil

/-- A name among the sub-attributes leads to one of them. -/
theorem TypedBelow.field {fields : Members} (h : TypedBelow a fields) (hm : (name, v) ∈ fields)
    (hs : a.sub? name = some s) : WellTyped s v := by
  obtain ⟨hmem, halike⟩ := Attribute.mem_of_sub? hs
  exact h (name, v) hm s hmem (Text.alike_comm s.name name ▸ halike)

namespace Patch

/-! ## What suits -/

/-- Whether a verb may use a value at an attribute, or at selected elements of it. -/
def Verb.Suits (verb : Verb) (a : Attribute) (selected : Bool) (v : Json) : Prop :=
  match verb with
  | .add => WellTyped a v ∨ WellTyped a.singleValued v
  | .replace => WellTyped (if selected then a.singleValued else a) v
  | .remove => True

/-- Whether the last step of a path is a filter. -/
def selects : List Path.Step → Bool
  | [] => false
  | [.filter _] => true
  | _ :: rest => selects rest

/-- Whether the value of a change suits the sub-attribute that a last step leads to. -/
def Context.SuitsLast (c : Context) (a : Attribute) : Path.Step → Prop
  | .filter _ => True
  | .name name => ∀ s, a.sub? name = some s → c.verb.Suits s false c.value

/-- Whether the value of a change suits the attribute that steps lead to. -/
def Context.Suits (c : Context) (a : Attribute) (steps : List Path.Step) : Prop :=
  ∀ t, Path.target c.path a steps = .ok t → c.verb.Suits t (selects steps) c.value

/-- An operation whose value suits what it is for. -/
structure Operation.Suits (limit : Nat) (root : Attribute) (o : Operation) : Prop where
  /-- Without a path every member of the value suits the attribute that it names. -/
  members : o.place.isEmpty = true → ∀ fields, o.value = .object fields → ∀ m ∈ fields,
    Context.SuitsLast ⟨o.verb, "", m.2⟩ root (.name m.1)
  /-- The value suits the attribute that the path leads to. -/
  target : o.place.isEmpty = false → ∀ steps, Path.compile limit o.place = .ok steps →
    Context.Suits ⟨o.verb, o.place, o.value⟩ root steps

/-! ## Arrays -/

theorem mem_appendNew {items : List Json} {w : Json} (h : w ∈ appendNew items v) :
    w ∈ items ∨ w = v := by
  unfold appendNew at h
  split at h
  · exact Or.inl h
  · rcases List.mem_append.mp h with h | h
    · exact Or.inl h
    · exact Or.inr (List.mem_singleton.mp h)

theorem mem_appendAllNew {items added : List Json} {w : Json}
    (h : w ∈ appendAllNew items added) : w ∈ items ∨ w ∈ added := by
  unfold appendAllNew at h
  induction added generalizing items with
  | nil => exact Or.inl h
  | cons x rest ih =>
      rcases ih h with h | h
      · rcases mem_appendNew h with h | rfl
        · exact Or.inl h
        · exact Or.inr (List.mem_cons_self ..)
      · exact Or.inr (List.mem_cons_of_mem _ h)

/-- What suits an addition to a multi-valued attribute brings single values. -/
theorem wellTyped_incoming (hmulti : a.multiValued = true)
    (h : WellTyped a v ∨ WellTyped a.singleValued v) :
    ∀ w ∈ incoming v, WellTyped a.singleValued w := by
  intro w hw
  unfold incoming at hw
  split at hw
  case h_1 items =>
      rcases h with h | h
      · exact (WellTyped.array_iff.mp h).2 w hw
      · exact absurd (WellTyped.array_iff.mp h).1 Bool.false_ne_true
  case h_2 => exact absurd hw List.not_mem_nil
  case h_3 harray hnull =>
      rw [List.mem_singleton.mp hw]
      rcases h with h | h
      · rcases h.of_multiValued hmulti with rfl | ⟨items, rfl⟩
        · exact absurd rfl hnull
        · exact absurd rfl (harray items)
      · exact h

/-- An array with what suits an addition is an array of single values. -/
theorem wellTyped_appendAllNew {items : List Json} (hmulti : a.multiValued = true)
    (hitems : ∀ w ∈ items, WellTyped a.singleValued w)
    (h : WellTyped a v ∨ WellTyped a.singleValued v) :
    ∀ w ∈ appendAllNew items (incoming v), WellTyped a.singleValued w := by
  intro w hw
  rcases mem_appendAllNew hw with hw | hw
  · exact hitems w hw
  · exact wellTyped_incoming hmulti h w hw

/-! ## One slot -/

variable {c : Context} {path : String} {changed fields : Members}

/-- A merge of well-typed members is well-typed. -/
theorem typedBelow_merge (hsound : a.Sound) (h : TypedBelow a members)
    (hfields : TypedBelow a fields) (hmerge : merge path a members fields = .ok changed) :
    TypedBelow a changed := by
  induction fields generalizing members with
  | nil =>
      cases hmerge
      exact h
  | cons m rest ih =>
      obtain ⟨name, v⟩ := m
      rw [merge] at hmerge
      split at hmerge
      case h_1 s hs =>
          have hv : WellTyped s v := hfields.field (List.mem_cons_self ..) hs
          refine ih (h.put_slot hsound (Attribute.mem_of_sub? hs).1 hv) ?_ hmerge
          exact fun n hn => hfields n (List.mem_cons_of_mem _ hn)
      case h_2 => cases hmerge

namespace Context

/-- An addition of what suits keeps members well-typed. -/
theorem typedBelow_addTo (hsound : a.Sound) (h : TypedBelow a members)
    (hs : s ∈ a.subAttributes) (hsuits : WellTyped s c.value ∨ WellTyped s.singleValued c.value)
    (hadd : c.addTo s members = .ok changed) : TypedBelow a changed := by
  unfold addTo at hadd
  split at hadd
  case isTrue hmulti =>
      cases hadd
      have hitems := wellTyped_appendAllNew hmulti (h.items_slot hs) hsuits
      exact h.put_slot hsound hs (.array hmulti hitems)
  case isFalse hmulti =>
      have hsingle : s.multiValued = false := Bool.eq_false_iff.mpr hmulti
      have hvalue : WellTyped s c.value := by
        rcases hsuits with hsuits | hsuits
        · exact hsuits
        · exact Attribute.singleValued_eq_self hsingle ▸ hsuits
      split at hadd
      case isTrue hcomplex =>
          split at hadd
          case h_1 fields hfields =>
              obtain ⟨merged, hmerge, hadd⟩ := ok_of_bind hadd
              cases hadd
              have hbelow := (WellTyped.object_iff.mp (hfields ▸ hvalue)).2.2
              have hmerged := typedBelow_merge (hsound.sub hs) (h.below_slot hs) hbelow hmerge
              exact h.put_slot hsound hs (.object hsingle hcomplex hmerged)
          case h_2 => cases hadd
      case isFalse =>
          cases hadd
          exact h.put_slot hsound hs hvalue

/-- A change by what suits keeps members well-typed. -/
theorem typedBelow_change (hsound : a.Sound) (h : TypedBelow a members)
    (hs : s ∈ a.subAttributes) (hsuits : c.verb.Suits s false c.value)
    (hchange : c.change s members = .ok changed) : TypedBelow a changed := by
  unfold change at hchange
  unfold Verb.Suits at hsuits
  split at hchange
  case h_1 hverb =>
      rw [hverb] at hsuits
      exact typedBelow_addTo hsound h hs hsuits hchange
  case h_2 =>
      cases hchange
      exact h.remove
  case h_3 hverb =>
      rw [hverb] at hsuits
      split at hchange
      case isTrue =>
          cases hchange
          exact h.remove
      case isFalse =>
          cases hchange
          exact h.put_slot hsound hs hsuits

/-- The last step of a path keeps members well-typed. -/
theorem typedBelow_last {step : Path.Step} (hsound : a.Sound) (h : TypedBelow a members)
    (hsuits : c.SuitsLast a step) (hlast : c.last a members step = .ok changed) :
    TypedBelow a changed := by
  unfold last at hlast
  split at hlast
  case h_1 => cases hlast
  case h_2 name =>
      split at hlast
      case h_1 s hs =>
          exact typedBelow_change hsound h (Attribute.mem_of_sub? hs).1 (hsuits s hs) hlast
      case h_2 => cases hlast

/-! ## Elements of an array -/

theorem Suits.last {step : Path.Step} (h : c.Suits a [step]) : c.SuitsLast a step := by
  cases step with
  | filter tree => trivial
  | name name =>
      intro s hs
      refine h s ?_
      rw [Path.target, hs]
      rfl

/-- A filter step does not change where a path leads. -/
theorem Suits.of_filter {tree : Filter.Tree} {step : Path.Step} {rest : List Path.Step}
    (h : c.Suits a (.filter tree :: step :: rest)) : c.Suits a (step :: rest) := h

/-- A step to a name leads to its sub-attribute. -/
theorem Suits.of_name {rest : List Path.Step} {step : Path.Step}
    (h : c.Suits a (.name name :: step :: rest)) (hs : a.sub? name = some s) :
    c.Suits s (step :: rest) := by
  intro t ht
  refine h t ?_
  rw [Path.target, hs]
  exact ht

/-- The last step of a path keeps an element well-typed. -/
theorem wellTyped_lastInElement {step : Path.Step} {w : Json} (hsound : a.Sound)
    (hv : WellTyped a v) (hsuits : c.SuitsLast a step)
    (hlast : c.lastInElement a step v = .ok w) : WellTyped a w := by
  unfold lastInElement at hlast
  split at hlast
  case h_1 members =>
      obtain ⟨changed, hchanged, hlast⟩ := ok_of_bind hlast
      cases hlast
      obtain ⟨hsingle, hcomplex, hbelow⟩ := WellTyped.object_iff.mp hv
      exact .object hsingle hcomplex (typedBelow_last hsound hbelow hsuits hchanged)
  case h_2 => cases hlast

/-- A change of the selected elements themselves keeps the elements well-typed. -/
theorem wellTyped_changeElements {accepts : Json → Bool} {items found : List Json}
    (hitems : ∀ v ∈ items, WellTyped a.singleValued v) (hsuits : c.verb.Suits a true c.value)
    (hchange : c.changeElements true accepts items = .ok found) :
    ∀ v ∈ found, WellTyped a.singleValued v := by
  unfold changeElements at hchange
  unfold Verb.Suits at hsuits
  split at hchange
  case h_1 => cases hchange
  case h_2 hverb =>
      rw [hverb] at hsuits
      split at hchange
      case isTrue => cases hchange
      case isFalse =>
          cases hchange
          intro v hv
          obtain ⟨w, hw, rfl⟩ := List.mem_map.mp hv
          split
          case isTrue => exact hsuits
          case isFalse => exact hitems w hw
  case h_3 =>
      cases hchange
      exact fun v hv => hitems v (List.mem_filter.mp hv).1

/-- The last step of a path in selected elements keeps the elements well-typed. -/
theorem wellTyped_changeInElements {accepts : Json → Bool} {filtered : Bool}
    {step : Path.Step} {items found : List Json} (hsound : a.Sound)
    (hitems : ∀ v ∈ items, WellTyped a v) (hsuits : c.SuitsLast a step)
    (hchange : c.changeInElements a filtered accepts step items = .ok found) :
    ∀ v ∈ found, WellTyped a v := by
  unfold changeInElements at hchange
  split at hchange
  case isTrue => cases hchange
  case isFalse =>
      intro v hv
      obtain ⟨w, hw, hlast⟩ := exists_of_mapM hchange v hv
      split at hlast
      case isTrue => exact wellTyped_lastInElement hsound (hitems w hw) hsuits hlast
      case isFalse =>
          cases hlast
          exact hitems _ hw

/-- The steps at an array keep its elements well-typed. -/
theorem wellTyped_throughArray {step : Path.Step} {rest : List Path.Step}
    {items found : List Json} (hsound : a.Sound)
    (hitems : ∀ v ∈ items, WellTyped a.singleValued v) (hsuits : c.Suits a (step :: rest))
    (hthrough : c.throughArray a items (step :: rest) = .ok found) :
    ∀ v ∈ found, WellTyped a.singleValued v := by
  unfold throughArray at hthrough
  rw [hsound.element_eq] at hthrough
  split at hthrough
  case h_1 tree rest heq =>
      cases heq
      unfold throughElements at hthrough
      split at hthrough
      case h_1 => exact wellTyped_changeElements hitems (hsuits a rfl) hthrough
      case h_2 step =>
          have hlast : c.SuitsLast a.singleValued step := hsuits.of_filter.last
          exact wellTyped_changeInElements hsound.singleValued hitems hlast hthrough
      case h_3 => cases hthrough
  case h_2 =>
      unfold throughElements at hthrough
      split at hthrough
      case h_1 heq => cases heq
      case h_2 step heq =>
          cases heq
          have hlast : c.SuitsLast a.singleValued step := hsuits.last
          exact wellTyped_changeInElements hsound.singleValued hitems hlast hthrough
      case h_3 => cases hthrough

/-! ## Steps, operations and requests -/

/-- What a way down goes on in belongs to its attribute. -/
theorem wellTyped_openSlot {found : Json} (hfound : WellTyped a found)
    (h : c.openSlot a found = .ok (.value v)) : WellTyped a v := by
  unfold openSlot at h
  split at h
  case isTrue =>
      split at h
      case h_1 =>
          split at h
          case isTrue => cases h
          case isFalse hmulti =>
              split at h
              case isTrue hcomplex =>
                  cases h
                  have hsingle : a.multiValued = false := Bool.eq_false_iff.mpr hmulti
                  have hzero : a.zeroValue = .object [] := by
                    rw [Attribute.zeroValue, if_neg hmulti, if_pos hcomplex]
                  rw [hzero]
                  exact .object hsingle hcomplex TypedBelow.nil
              case isFalse => cases h
      case h_2 => cases h
      case h_3 => cases h
  case isFalse =>
      cases h
      exact hfound

/-- The steps of a path keep members well-typed. -/
theorem typedBelow_along {step : Path.Step} {rest : List Path.Step} (hsound : a.Sound)
    (h : TypedBelow a members) (hsuits : c.Suits a (step :: rest))
    (halong : c.along a members step rest = .ok changed) : TypedBelow a changed := by
  induction rest generalizing a members step changed with
  | nil => exact typedBelow_last hsound h hsuits.last halong
  | cons next rest ih =>
      have hslot : ∀ {s : Attribute}, s ∈ a.subAttributes →
          WellTyped s (members.valueOf s.name) := fun hmem => h.valueOf hmem
      cases along_iff.mp halong with
      | done => exact h
      | object hs hopen hmade =>
          obtain ⟨hmem, _⟩ := Attribute.mem_of_sub? hs
          obtain ⟨hsingle, hcomplex, hinner⟩ :=
            WellTyped.object_iff.mp (wellTyped_openSlot (hslot hmem) hopen)
          have hbelow := ih (hsound.sub hmem) hinner (hsuits.of_name hs) hmade
          exact h.put_slot hsound hmem (.object hsingle hcomplex hbelow)
      | array hs hopen hmade =>
          obtain ⟨hmem, _⟩ := Attribute.mem_of_sub? hs
          obtain ⟨hmulti, hitems⟩ :=
            WellTyped.array_iff.mp (wellTyped_openSlot (hslot hmem) hopen)
          have hfound := wellTyped_throughArray (hsound.sub hmem) hitems (hsuits.of_name hs) hmade
          exact h.put_slot hsound hmem (.array hmulti hfound)

end Context

/-- The members of a value keep members well-typed, each as an operation of its own. -/
theorem typedBelow_spreadOut {verb : Verb} (hsound : a.Sound) (h : TypedBelow a members)
    (hsuits : ∀ m ∈ fields, Context.SuitsLast ⟨verb, "", m.2⟩ a (.name m.1))
    (hspread : spreadOut verb a members fields = .ok changed) : TypedBelow a changed := by
  induction fields generalizing members with
  | nil =>
      cases hspread
      exact h
  | cons m rest ih =>
      obtain ⟨key, v⟩ := m
      rw [spreadOut] at hspread
      obtain ⟨next, hnext, hspread⟩ := ok_of_bind hspread
      have hfirst : Context.SuitsLast ⟨verb, "", v⟩ a (.name key) :=
        hsuits (key, v) List.mem_cons_self
      have hrest : ∀ n ∈ rest, Context.SuitsLast ⟨verb, "", n.2⟩ a (.name n.1) :=
        fun n hn => hsuits n (List.mem_cons_of_mem _ hn)
      exact ih (Context.typedBelow_last hsound h hfirst hnext) hrest hspread

/-- An operation that suits the root keeps members well-typed. -/
theorem Operation.typedBelow_apply {limit : Nat} {o : Operation} (hsound : a.Sound)
    (h : TypedBelow a members) (hsuits : o.Suits limit a)
    (happly : o.apply limit a members = .ok changed) : TypedBelow a changed := by
  unfold Operation.apply at happly
  split at happly
  case isTrue hplace =>
      unfold applyPathless at happly
      split at happly
      case isTrue => cases happly
      case isFalse =>
          split at happly
          case h_1 fields hfields =>
              exact typedBelow_spreadOut hsound h (hsuits.members hplace fields hfields) happly
          case h_2 => cases happly
  case isFalse hplace =>
      split at happly
      case h_1 => cases happly
      case h_2 hcompile => exact absurd rfl (Path.compile_ne_nil hcompile)
      case h_3 step rest hcompile =>
          have htarget := hsuits.target (Bool.eq_false_iff.mpr hplace) _ hcompile
          exact Context.typedBelow_along hsound h htarget happly

/-- Operations that suit the root keep members well-typed. -/
theorem typedBelow_applyAll {limit index : Nat} {operations : List Operation} (hsound : a.Sound)
    (h : TypedBelow a members) (hsuits : ∀ o ∈ operations, o.Suits limit a)
    (happly : applyAll limit a index members operations = .ok changed) :
    TypedBelow a changed := by
  induction operations generalizing members index with
  | nil =>
      cases happly
      exact h
  | cons o rest ih =>
      rw [applyAll] at happly
      split at happly
      case h_1 next hnext =>
          have ho : o.Suits limit a := hsuits o List.mem_cons_self
          have hrest : ∀ p ∈ rest, p.Suits limit a :=
            fun p hp => hsuits p (List.mem_cons_of_mem o hp)
          exact ih (o.typedBelow_apply hsound h ho hnext) hrest happly
      case h_2 => cases happly

/-- A request whose operations suit the schema keeps members well-typed. -/
theorem Request.typedBelow_apply {limit : Nat} {schema : Schema} {request : Request}
    (hsound : schema.root.Sound) (h : TypedBelow schema.root members)
    (hsuits : ∀ o ∈ request.operations, o.Suits limit schema.root)
    (happly : request.apply limit schema members = .ok changed) :
    TypedBelow schema.root changed := by
  unfold Request.apply at happly
  split at happly
  case isTrue => exact typedBelow_applyAll hsound h hsuits happly
  case isFalse => cases happly

/-- Under every accepted schema, requests whose operations suit it keep resources well-typed, and
well-typed resources pass the check of types. -/
theorem typing_of_accepted {schema : Schema} (hschema : schema.Accepted) :
    (∀ (limit : Nat) (request : Request) (members changed : Members),
      TypedBelow schema.root members → (∀ o ∈ request.operations, o.Suits limit schema.root) →
      request.apply limit schema members = .ok changed → TypedBelow schema.root changed) ∧
    ∀ r : Resource, TypedBelow schema.root r.members →
      Validation.checkTypes schema r = .ok () := by
  have hsound := hschema.sound
  constructor
  · intro limit request members changed h hsuits happly
    exact request.typedBelow_apply hsound h hsuits happly
  · intro r h
    exact Validation.checkTypes_of_typedBelow hsound h

/-- An operation at an attribute of the top suits the root if its value suits the attribute. -/
theorem Operation.Suits.of_name {limit : Nat} {o : Operation}
    (hplace : o.place.isEmpty = false) (hcompile : Path.compile limit o.place = .ok [.name name])
    (hs : a.sub? name = some s) (hvalue : o.verb.Suits s false o.value) : o.Suits limit a := by
  constructor
  · intro hempty
    rw [hplace] at hempty
    cases hempty
  · intro _ steps hsteps t ht
    rw [hcompile] at hsteps
    cases hsteps
    rw [Path.target, hs] at ht
    cases ht
    exact hvalue

/-- A member joins a group, the group is renamed, and another member leaves. -/
theorem typing_of_accepted_group :
    let before : Members := [("displayName", .string "Ops"),
      ("members", .array [.object [("value", .string "u1")]])]
    let request := Request.ofOperations
      [⟨.add, some "members", .object [("value", .string "u2")]⟩,
        ⟨.replace, some "displayName", .string "Operators"⟩,
        ⟨.remove, some "members[value eq \"u1\"]", .null⟩]
    TypedBelow Schema.group.root before ∧
      (∀ o ∈ request.operations, o.Suits Filter.defaultMaxLength Schema.group.root) ∧
      ∃ changed, request.apply Filter.defaultMaxLength Schema.group before = .ok changed ∧
        TypedBelow Schema.group.root changed ∧
        Validation.checkTypes Schema.group ⟨changed⟩ = .ok () := by
  intro before request
  have hgroup : Schema.group.Accepted := .built Schema.build_group
  have hsound := hgroup.sound
  obtain ⟨label, hlabel, hlabelForm⟩ : ∃ s, Schema.group.root.sub? "displayName" = some s ∧
      ∀ text, WellTyped s (.string text) := ⟨_, rfl, fun _ => .simple rfl rfl rfl⟩
  obtain ⟨crew, hcrew, hmulti, hcomplex, value, hvalue, hform⟩ :
      ∃ s, Schema.group.root.sub? "members" = some s ∧ s.multiValued = true ∧
        s.isComplex = true ∧ ∃ t, s.sub? "value" = some t ∧ ∀ text, WellTyped t (.string text) :=
    ⟨_, rfl, rfl, rfl, _, rfl, fun _ => .simple rfl rfl rfl⟩
  obtain ⟨hlabelMem, hlabelName⟩ := Attribute.mem_of_sub? hlabel
  obtain ⟨hcrewMem, hcrewName⟩ := Attribute.mem_of_sub? hcrew
  obtain ⟨hvalueMem, hvalueName⟩ := Attribute.mem_of_sub? hvalue
  have hone : ∀ text, WellTyped crew.singleValued (.object [("value", .string text)]) :=
    fun text => .object rfl hcomplex (TypedBelow.nil.put (hsound.sub hcrewMem).singleValued
      hvalueMem (Text.alike_comm .. ▸ hvalueName) (hform text))
  have hbefore : TypedBelow Schema.group.root before := by
    have hnamed := TypedBelow.nil.put hsound hlabelMem
      (Text.alike_comm .. ▸ hlabelName) (hlabelForm "Ops")
    refine hnamed.put hsound hcrewMem (Text.alike_comm .. ▸ hcrewName) (.array hmulti ?_)
    intro v hv
    rw [List.mem_singleton.mp hv]
    exact hone "u1"
  have hsuits : ∀ o ∈ request.operations, o.Suits Filter.defaultMaxLength Schema.group.root := by
    intro o ho
    rcases List.mem_cons.mp ho with rfl | ho
    · exact .of_name (by decide +kernel) rfl hcrew (Or.inr (hone "u2"))
    rcases List.mem_cons.mp ho with rfl | ho
    · exact .of_name (by decide +kernel) rfl hlabel (hlabelForm "Operators")
    · rw [List.mem_singleton.mp ho]
      exact ⟨fun hplace => absurd hplace (by decide +kernel), fun _ _ _ _ _ => trivial⟩
  have hdone : (request.apply Filter.defaultMaxLength Schema.group before).isOk = true := by
    decide +kernel
  cases happly : request.apply Filter.defaultMaxLength Schema.group before with
  | error cause =>
      rw [happly] at hdone
      cases hdone
  | ok changed =>
      obtain ⟨hkeeps, haccepts⟩ := typing_of_accepted hgroup
      have hchanged := hkeeps _ request before changed hbefore hsuits happly
      exact ⟨hbefore, hsuits, changed, rfl, hchanged, haccepts ⟨changed⟩ hchanged⟩

end Patch

end Scim
