import Scim.Proofs.Json.Equality
import Scim.Proofs.Json.Updates
import Scim.Proofs.Patch.Descent

/-!
# Additions

To add the same value twice is to add it once.  Whatever an addition has made of a resource, the
same addition succeeds on that and leaves it as it is (`Operation.apply_again`).

At its target an addition is an update of one name (`Context.addTo_iff`).  The value that it puts
there already holds what is added, so it is not changed by it again (`sum_sum_self`); and what two
additions to an attribute make of a value is the work of one (`sum_sum`).  The updates of an
operation without a path, which may name one attribute several times and in several cases, are
therefore of a closed kind, as are the fields that a complex attribute is given.

On the way down the second addition finds what the first one has put there.  An element of an array
that it selects after the first one has changed it may be one that was not selected before, but not
one that the first one has left half done (`mapM_settled`).
-/

namespace Scim.Patch

variable {root a s : Attribute} {members changed fields : Members} {items added : List Json}
  {limit : Nat} {path name : String} {v w : Json} {step : Path.Step} {rest : List Path.Step}
  {c : Context}

/-! ## Arrays -/

theorem contains_appendNew (items : List Json) (v w : Json) :
    (appendNew items w).contains v = (items.contains v || v == w) := by
  unfold appendNew
  split
  case isTrue h =>
      cases hvw : v == w with
      | true => rw [Json.contains_congr hvw, h, Bool.true_or]
      | false => rw [Bool.or_false]
  case isFalse => simp

/-- An array with new values holds its own values and the added ones. -/
theorem contains_appendAllNew (items added : List Json) (v : Json) :
    (appendAllNew items added).contains v = (items.contains v || added.contains v) := by
  induction added generalizing items with
  | nil => exact (Bool.or_false _).symm
  | cons w rest ih =>
      show (appendAllNew (appendNew items w) rest).contains v = _
      rw [ih, contains_appendNew, List.contains_cons, Bool.or_assoc]

theorem contains_of_mem (h : v ∈ items) : items.contains v = true := by
  rw [List.contains_eq_any_beq, List.any_eq_true]
  exact ⟨v, h, Json.beq_refl v⟩

/-- Values that an array holds already are not appended. -/
theorem appendAllNew_eq_self (h : ∀ v ∈ added, items.contains v = true) :
    appendAllNew items added = items := by
  induction added with
  | nil => rfl
  | cons v rest ih =>
      obtain ⟨hv, hrest⟩ := List.forall_mem_cons.mp h
      show appendAllNew (appendNew items v) rest = items
      rw [appendNew, if_pos hv, ih hrest]

theorem appendAllNew_again (items added : List Json) :
    appendAllNew (appendAllNew items added) added = appendAllNew items added := by
  refine appendAllNew_eq_self fun v hv => ?_
  rw [contains_appendAllNew, contains_of_mem hv, Bool.or_true]

/-! ## Fields -/

/-- Updates that put the values of fields into the slots of sub-attributes. -/
def fieldUpdates (a : Attribute) (fields : Members) : List Update :=
  fields.filterMap fun m => (a.sub? m.1).map fun s => ⟨s.name, fun _ => m.2⟩

/-- The updates of a kind that do not look at what is there. -/
def IsField (a : Attribute) (u : Update) : Prop :=
  ∃ s v, a.sub? u.name = some s ∧ s.name = u.name ∧ u.value = fun _ => v

/-- A sub-attribute is found by its own name. -/
theorem sub?_name (hs : a.sub? name = some s) : a.sub? s.name = some s := by
  rw [Attribute.sub?_congr (Attribute.mem_of_sub? hs).2, hs]

/-- Updates of sub-attributes are updates of one name or of names that are not alike. -/
theorem not_alike_of_sub? {u w : Update} {t : Attribute} (hs : a.sub? u.name = some s)
    (hname : s.name = u.name) (ht : a.sub? w.name = some t) (hname' : t.name = w.name)
    (hne : u.name ≠ w.name) : Text.alike u.name w.name = false := by
  refine Bool.eq_false_iff.mpr fun halike => hne ?_
  rw [Attribute.sub?_congr halike, ht] at hs
  cases hs
  rw [← hname, hname']

theorem closed_isField (a : Attribute) : Update.Closed (IsField a) where
  apart := by
    rintro u w ⟨s, _, hs, hname, _⟩ ⟨t, _, ht, hname', _⟩ hne
    exact not_alike_of_sub? hs hname ht hname' hne
  join := by
    rintro name f g _ ⟨s, v, hs, hname, hg⟩
    dsimp only at hg
    subst hg
    exact ⟨s, v, hs, hname, rfl⟩
  again := by
    rintro name f ⟨s, v, hs, hname, hf⟩ found
    dsimp only at hf
    rw [hf]

theorem isField_of_mem {u : Update} (h : u ∈ fieldUpdates a fields) : IsField a u := by
  obtain ⟨m, _, hm⟩ := List.mem_filterMap.mp h
  obtain ⟨s, hs, rfl⟩ := Option.map_eq_some_iff.mp hm
  exact ⟨s, m.2, sub?_name hs, rfl, rfl⟩

/-- Fields are merged if every one of them names a sub-attribute. -/
theorem merge_iff : merge path a members fields = .ok changed ↔
    (∀ m ∈ fields, (a.sub? m.1).isSome = true) ∧
      changed = Update.all (fieldUpdates a fields) members := by
  induction fields generalizing members with
  | nil =>
      constructor
      · intro h
        cases h
        exact ⟨List.forall_mem_nil _, rfl⟩
      · rintro ⟨_, rfl⟩
        rfl
  | cons m rest ih =>
      obtain ⟨name, v⟩ := m
      rw [merge, List.forall_mem_cons]
      cases hs : a.sub? name with
      | none => simp
      | some s =>
          have hupdates : fieldUpdates a ((name, v) :: rest) =
              ⟨s.name, fun _ => v⟩ :: fieldUpdates a rest := by
            simp [fieldUpdates, hs]
          dsimp only
          rw [ih, hupdates]
          simp only [Option.isSome_some, true_and]
          rfl

/-! ## Values -/

/-- What an addition puts into the slot of an attribute. -/
def sum (a : Attribute) (v : Json) (found : Option Json) : Json :=
  if a.multiValued then .array (appendAllNew ((found.bind Json.array?).getD []) (incoming v))
  else if a.isComplex then
    .object (Update.all (fieldUpdates a (v.object?.getD [])) ((found.bind Json.object?).getD []))
  else v

/-- The value that two additions bring together. -/
def joined (a : Attribute) (v w : Json) : Json :=
  if a.multiValued then .array (incoming v ++ incoming w)
  else if a.isComplex then .object (v.object?.getD [] ++ w.object?.getD [])
  else w

/-- Whether a value can be added to an attribute. -/
def Takes (a : Attribute) (v : Json) : Prop :=
  a.multiValued = false → a.isComplex = true →
    ∃ fields, v = .object fields ∧ ∀ m ∈ fields, (a.sub? m.1).isSome = true

/-- An addition after an addition is an addition of both. -/
theorem sum_sum (a : Attribute) (v w : Json) (found : Option Json) :
    sum a w (some (sum a v found)) = sum a (joined a v w) found := by
  unfold sum joined
  split
  · simp [Json.array?, incoming, appendAllNew]
  split
  · simp [Json.object?, fieldUpdates, Update.all]
  · rfl

/-- A value that has been added is not added again. -/
theorem sum_sum_self (a : Attribute) (v : Json) (found : Option Json) :
    sum a v (some (sum a v found)) = sum a v found := by
  unfold sum
  split
  · exact congrArg Json.array (appendAllNew_again _ _)
  split
  · exact congrArg Json.object (Update.all_all (closed_isField a) (fun _ => isField_of_mem) _)
  · rfl

namespace Context

/-- An addition to the slot of an attribute is an update of its name. -/
theorem addTo_eq (h : Takes a c.value) :
    c.addTo a members = .ok ((Update.mk a.name (sum a c.value)).on members) := by
  unfold addTo sum Update.on
  dsimp only
  rw [Members.get?_slot]
  by_cases hmulti : a.multiValued = true
  · rw [if_pos hmulti, if_pos hmulti]
  by_cases hcomplex : a.isComplex = true
  · obtain ⟨fields, hfields, hknown⟩ := h (Bool.eq_false_iff.mpr hmulti) hcomplex
    rw [if_neg hmulti, if_pos hcomplex, if_neg hmulti, if_pos hcomplex, hfields]
    dsimp only
    rw [merge_iff.mpr ⟨hknown, rfl⟩]
    rfl
  · rw [if_neg hmulti, if_neg hcomplex, if_neg hmulti, if_neg hcomplex]

theorem takes_of_addTo (h : c.addTo a members = .ok changed) : Takes a c.value := by
  intro hmulti hcomplex
  unfold addTo at h
  dsimp only at h
  rw [hmulti, if_neg Bool.false_ne_true, hcomplex, if_pos rfl] at h
  cases hvalue : c.value with
  | object fields =>
      rw [hvalue] at h
      obtain ⟨merged, hmerged, _⟩ := ok_of_bind h
      exact ⟨fields, rfl, (merge_iff.mp hmerged).1⟩
  | _ =>
      rw [hvalue] at h
      cases h

theorem addTo_iff : c.addTo a members = .ok changed ↔
    Takes a c.value ∧ changed = (Update.mk a.name (sum a c.value)).on members := by
  constructor
  · intro h
    have htakes := takes_of_addTo h
    rw [addTo_eq htakes] at h
    exact ⟨htakes, (Except.ok.inj h).symm⟩
  · rintro ⟨htakes, rfl⟩
    exact addTo_eq htakes

/-! ## Steps -/

/-- The last step of an addition is an update of the name that it leads to. -/
theorem last_iff (hverb : c.verb = .add) : c.last a members step = .ok changed ↔
    ∃ name s, step = .name name ∧ a.sub? name = some s ∧ Takes s c.value ∧
      changed = (Update.mk s.name (sum s c.value)).on members := by
  cases step with
  | filter tree => simp [last]
  | name name =>
      rw [last]
      cases hs : a.sub? name with
      | none => simp [hs]
      | some s =>
          dsimp only
          rw [change, hverb]
          dsimp only
          rw [addTo_iff]
          simp [hs]

theorem last_again (hverb : c.verb = .add) (h : c.last a members step = .ok changed) :
    c.last a changed step = .ok changed := by
  obtain ⟨name, s, hstep, hs, htakes, rfl⟩ := (last_iff hverb).mp h
  refine (last_iff hverb).mpr ⟨name, s, hstep, hs, htakes, ?_⟩
  rw [Update.on_on, funext (sum_sum_self s c.value)]

/-- What an addition has made of an element is left by it, whether it still selects it or not. -/
theorem changeInElements_again {element : Attribute} {filtered : Bool} {selects : Json → Bool}
    {made : List Json} (hverb : c.verb = .add)
    (h : c.changeInElements element filtered selects step items = .ok made) :
    c.changeInElements element filtered selects step made = .ok made := by
  have hnever : ∀ vs : List Json,
      (filtered && !vs.any selects && decide (c.verb = .replace)) = false := by simp [hverb]
  rw [changeInElements, hnever, if_neg Bool.false_ne_true] at h ⊢
  refine mapM_settled (fun v w hv => ?_) h
  split at hv
  case isFalse hselected =>
      cases hv
      exact if_neg hselected
  case isTrue =>
      cases v with
      | object members =>
          obtain ⟨changed, hchanged, hv⟩ := ok_of_bind hv
          cases hv
          split
          · rw [lastInElement, last_again hverb hchanged]
            rfl
          · rfl
      | _ => cases hv

theorem throughArray_again {next : Path.Step} {made : List Json} (hverb : c.verb = .add)
    (h : c.throughArray a items (next :: rest) = .ok made) :
    c.throughArray a made (next :: rest) = .ok made := by
  cases next with
  | filter tree =>
      rw [throughArray] at h ⊢
      cases rest with
      | nil =>
          rw [throughElements, changeElements, hverb] at h
          cases h
      | cons step more =>
          cases more with
          | nil => exact changeInElements_again hverb h
          | cons => cases h
  | name name =>
      cases rest with
      | nil =>
          have hall : c.changeInElements a.element false (fun _ => true) (.name name) items =
              .ok made := h
          exact changeInElements_again hverb hall
      | cons => cases h

/-- An addition finds what it has put under the names of its path. -/
theorem along_again (hverb : c.verb = .add) (h : c.along a members step rest = .ok changed) :
    c.along a changed step rest = .ok changed := by
  induction rest generalizing a members step changed with
  | nil => exact last_again hverb h
  | cons next rest ih =>
      cases along_iff.mp h with
      | done => exact h
      | object hs _ hmade => exact along_put_object hs (ih hmade)
      | array hs _ hmade => exact along_put_array hs (throughArray_again hverb hmade)

end Context

/-! ## Operations -/

/-- The updates that add to sub-attributes. -/
def IsAddition (root : Attribute) (u : Update) : Prop :=
  ∃ s v, root.sub? u.name = some s ∧ s.name = u.name ∧ u.value = sum s v

theorem closed_isAddition (root : Attribute) : Update.Closed (IsAddition root) where
  apart := by
    rintro u w ⟨s, _, hs, hname, _⟩ ⟨t, _, ht, hname', _⟩ hne
    exact not_alike_of_sub? hs hname ht hname' hne
  join := by
    rintro name f g ⟨s, v, hs, hname, hf⟩ ⟨t, w, ht, _, hg⟩
    dsimp only at hs hname hf ht hg
    rw [hs] at ht
    cases ht
    rw [hf, hg]
    exact ⟨s, joined s v w, hs, hname, funext (sum_sum s v w)⟩
  again := by
    rintro name f ⟨s, v, _, _, hf⟩ found
    dsimp only at hf
    rw [hf, sum_sum_self]

/-- An addition without a path is a list of updates, whatever it is made to. -/
theorem updates_of_spreadOut (h : spreadOut .add root members fields = .ok changed) :
    ∃ us, (∀ u ∈ us, IsAddition root u) ∧ changed = Update.all us members ∧
      ∀ other, spreadOut .add root other fields = .ok (Update.all us other) := by
  induction fields generalizing members with
  | nil =>
      cases h
      exact ⟨[], List.forall_mem_nil _, rfl, fun _ => rfl⟩
  | cons field rest ih =>
      obtain ⟨key, v⟩ := field
      rw [spreadOut] at h
      obtain ⟨next, hnext, h⟩ := ok_of_bind h
      obtain ⟨_, s, hstep, hs, htakes, rfl⟩ := (Context.last_iff rfl).mp hnext
      cases hstep
      obtain ⟨us, hus, hchanged, hother⟩ := ih h
      have hu : IsAddition root ⟨s.name, sum s v⟩ := ⟨s, v, sub?_name hs, rfl, rfl⟩
      have hall := List.forall_mem_cons.mpr ⟨hu, hus⟩
      refine ⟨⟨s.name, sum s v⟩ :: us, hall, hchanged, fun other => ?_⟩
      rw [spreadOut, (Context.last_iff rfl).mpr ⟨key, s, rfl, hs, htakes, rfl⟩, ok_bind]
      exact hother _

theorem Operation.applyPathless_again {o : Operation} (hverb : o.verb = .add)
    (h : o.applyPathless root members = .ok changed) :
    o.applyPathless root changed = .ok changed := by
  rw [applyPathless, hverb, if_neg (by decide)] at h ⊢
  cases hvalue : o.value with
  | object fields =>
      rw [hvalue] at h
      obtain ⟨us, hus, rfl, hother⟩ := updates_of_spreadOut h
      show spreadOut .add root (Update.all us members) fields = _
      rw [hother, Update.all_all (closed_isAddition root) hus]
  | _ =>
      rw [hvalue] at h
      cases h

/-- An addition that succeeds also succeeds on what it has made, and leaves it as it is. -/
theorem Operation.apply_again {o : Operation} (hverb : o.verb = .add)
    (h : o.apply limit root members = .ok changed) : o.apply limit root changed = .ok changed := by
  unfold apply at h ⊢
  split at h
  case isTrue hplace =>
      rw [if_pos hplace]
      exact applyPathless_again hverb h
  case isFalse hplace =>
      rw [if_neg hplace]
      split at h
      case h_1 => cases h
      case h_2 => exact applyPathless_again hverb h
      case h_3 step rest _ => exact Context.along_again hverb h

/-- A group is given a name in two cases and a member that it has already. -/
theorem Operation.apply_again_spellings :
    let o : Operation := ⟨.add, none, .object [("DISPLAYNAME", .string "Old"),
      ("displayName", .string "Ops"), ("members", .object [("value", .string "u1")])]⟩
    let before : Members := [("members", .array [.object [("value", .string "u1")]])]
    let after : Members := [("displayName", .string "Ops"),
      ("members", .array [.object [("value", .string "u1")]])]
    o.verb = .add ∧ o.apply Filter.defaultMaxLength Schema.group.root before = .ok after ∧
      o.apply Filter.defaultMaxLength Schema.group.root after = .ok after := by
  intro o before after
  have hplace : o.place.isEmpty = true := rfl
  have hfirst : o.apply Filter.defaultMaxLength Schema.group.root before = .ok after := by
    rw [apply, if_pos hplace]
    dsimp only [o, before, after]
    rfl
  exact ⟨rfl, hfirst, Operation.apply_again rfl hfirst⟩

end Scim.Patch
