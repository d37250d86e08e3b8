import Scim.Proofs.Outcome
import Scim.Proofs.Schema.Index
import Scim.Walk.Single

/-!
# The visits of a walk

After a visit a walk comes to the *followers* of the visit: the elements of an array, or the values
of the sub-attributes of an object.  It goes on to them if its visitor says so, and `Makes` says
which visits it makes in this way, without their order.

A walk whose visits can fail ends well if all visits that it makes do, and otherwise it ends with
the error of one of them (`through_eq_ok_iff`, `exists_of_through_eq_error`).  This needs no more
than to look at each function of the walk once, since `Tells` speaks of a list of visits and of all
that they lead to.

The names that lead to a visit are those on the way to its attribute (`path_of_makes`).
-/

namespace Scim.Walk

variable {ε : Type} {visitor : Visitor (Except ε)} {start visit next : Visit Json}
  {starts others : List (Visit Json)} {members : Members} {a s : Attribute} {items : List Json}
  {ancestors : List (Frame Json)} {result : Except ε Unit} {e : ε}

/-! ## Followers -/

/-- The visits that come after a visit, if the walk goes on below it. -/
def Visit.followers (visit : Visit Json) : List (Visit Json) :=
  match visit.content with
  | .array items =>
      if visit.descriptor.multiValued && visit.element.isNone then
        items.mapIdx fun i v => ⟨visit.descriptor.element, v, visit.below, some i⟩
      else []
  | .object members =>
      if visit.descriptor.isComplex && !visit.descriptor.multiValued then
        visit.descriptor.subAttributes.map fun s =>
          ⟨s, Members.valueOf members s.name, visit.below, none⟩
      else []
  | _ => []

/-- The followers of a visit are the elements of its array or the members of its object. -/
theorem mem_followers_iff : next ∈ visit.followers ↔
    (∃ items i v, visit.content = .array items ∧ visit.descriptor.multiValued = true ∧
      visit.element = none ∧ items[i]? = some v ∧
      next = ⟨visit.descriptor.element, v, visit.below, some i⟩) ∨
    ∃ members, ∃ s ∈ visit.descriptor.subAttributes, visit.content = .object members ∧
      visit.descriptor.isComplex = true ∧ visit.descriptor.multiValued = false ∧
      next = ⟨s, Members.valueOf members s.name, visit.below, none⟩ := by
  obtain ⟨a, v, ancestors, element⟩ := visit
  cases v with
  | array items =>
      simp only [Visit.followers]
      split
      case isTrue h =>
          simp only [Bool.and_eq_true, Option.isNone_iff_eq_none] at h
          simp [h, List.mem_mapIdx, List.getElem?_eq_some_iff, eq_comm (b := next)]
      case isFalse h =>
          simp only [Bool.and_eq_true, Option.isNone_iff_eq_none] at h
          simp only [List.not_mem_nil, false_iff]
          rintro (⟨_, _, _, _, hmulti, helement, _⟩ | ⟨_, _, _, hcontent, _⟩)
          · exact h ⟨hmulti, helement⟩
          · cases hcontent
  | object members =>
      simp only [Visit.followers]
      split
      case isTrue h =>
          simp only [Bool.and_eq_true, Bool.not_eq_true'] at h
          simp only [List.mem_map, h, reduceCtorEq, false_and, exists_false, false_or,
            Json.object.injEq, true_and, eq_comm (b := next)]
          constructor
          · rintro ⟨s, hs, hnext⟩
            exact ⟨members, s, hs, rfl, hnext⟩
          · rintro ⟨_, s, hs, rfl, hnext⟩
            exact ⟨s, hs, hnext⟩
      case isFalse h =>
          simp only [Bool.and_eq_true, Bool.not_eq_true'] at h
          simp only [List.not_mem_nil, false_iff]
          rintro (⟨_, _, _, hcontent, _⟩ | ⟨_, _, _, _, hcomplex, hsingle, _⟩)
          · cases hcontent
          · exact h ⟨hcomplex, hsingle⟩
  | _ => simp [Visit.followers]

/-- A walk that has come to `start` makes the visit. -/
inductive Leads (visitor : Visitor (Except ε)) : Visit Json → Visit Json → Prop where
  | self {visit : Visit Json} : Leads visitor visit visit
  | step {start next visit : Visit Json} (hgo : visitor start = .ok .goOn)
      (hnext : next ∈ start.followers) (h : Leads visitor next visit) : Leads visitor start visit

/-- A visit leads on to the followers of every visit that it leads to. -/
theorem Leads.snoc (h : Leads visitor start visit) (hgo : visitor visit = .ok .goOn)
    (hnext : next ∈ visit.followers) : Leads visitor start next := by
  induction h with
  | self => exact .step hgo hnext .self
  | step hgo' hnext' _ ih => exact .step hgo' hnext' (ih hgo hnext)

/-- The visits with which a walk through the attributes of an object starts. -/
def startsOf (ancestors : List (Frame Json)) (members : Members) (as : List Attribute) :
    List (Visit Json) :=
  as.map fun a => ⟨a, members.valueOf a.name, ancestors, none⟩

/-- A walk through a resource makes the visit. -/
def Makes (visitor : Visitor (Except ε)) (schema : Schema) (members : Members)
    (visit : Visit Json) : Prop :=
  ∃ start ∈ startsOf [] members schema.attributes, Leads visitor start visit

/-! ## What the end of a walk tells -/

/-- If the result is good then so are all visits to which the given ones lead, and otherwise it is
the error of one of them. -/
def Tells (visitor : Visitor (Except ε)) (starts : List (Visit Json)) : Except ε Unit → Prop
  | .ok () =>
      ∀ start ∈ starts, ∀ visit, Leads visitor start visit → ∃ flow, visitor visit = .ok flow
  | .error e => ∃ start ∈ starts, ∃ visit, Leads visitor start visit ∧ visitor visit = .error e

theorem Tells.nil : Tells visitor [] (.ok ()) := fun _ h => absurd h List.not_mem_nil

/-- Parts of a walk that are done one after the other. -/
theorem Tells.append {after : Except ε Unit} (h : Tells visitor starts result)
    (h' : Tells visitor others after) :
    Tells visitor (starts ++ others) (result >>= fun _ => after) := by
  cases result with
  | error e =>
      obtain ⟨start, hstart, hfails⟩ := h
      exact ⟨start, List.mem_append_left _ hstart, hfails⟩
  | ok =>
      cases after with
      | error e =>
          obtain ⟨start, hstart, hfails⟩ := h'
          exact ⟨start, List.mem_append_right _ hstart, hfails⟩
      | ok => exact List.forall_mem_append.mpr ⟨h, h'⟩

/-- A visit, after which the walk may go on to its followers. -/
theorem Tells.below {after : Except ε Unit} (h : Tells visitor visit.followers after) :
    Tells visitor [visit] (visitor visit >>= fun flow =>
      match flow with
      | .skip => .ok ()
      | .goOn => after) := by
  cases hvisit : visitor visit with
  | error e => exact ⟨visit, List.mem_singleton_self visit, visit, .self, hvisit⟩
  | ok flow =>
      cases flow with
      | skip =>
          intro start hstart next hleads
          obtain rfl := List.mem_singleton.mp hstart
          cases hleads with
          | self => exact ⟨_, hvisit⟩
          | step hgo => simp [hvisit] at hgo
      | goOn =>
          cases after with
          | error e =>
              obtain ⟨next, hnext, last, hleads, hfails⟩ := h
              exact ⟨visit, List.mem_singleton_self visit, last, .step hvisit hnext hleads, hfails⟩
          | ok =>
              intro start hstart next hleads
              obtain rfl := List.mem_singleton.mp hstart
              cases hleads with
              | self => exact ⟨_, hvisit⟩
              | step _ hnext hleads => exact h _ hnext _ hleads

/-- A walk through the elements of an array from a position on. -/
theorem tells_eachFrom {action : Nat → Json → Except ε Unit} (visitOf : Nat → Json → Visit Json)
    (h : ∀ i v, Tells visitor [visitOf i v] (action i v)) (position : Nat) (items : List Json) :
    Tells visitor (items.mapIdx fun i v => visitOf (position + i) v)
      (eachFrom position action items) := by
  induction items generalizing position with
  | nil => exact .nil
  | cons v rest ih =>
      have hrest := ih (position + 1)
      simp only [Nat.add_assoc, Nat.add_comm 1] at hrest
      rw [eachFrom, List.mapIdx_cons]
      exact (h position v).append hrest

section Inner

variable {inner : List (Frame Json) → Members → Except ε Unit}

/-- What is below an object is told by the walk through its members. -/
theorem tells_object (hvisit : visit.content = .object members)
    (hinner : ∀ ancestors members,
      Tells visitor (startsOf ancestors members visit.descriptor.subAttributes)
        (inner ancestors members)) :
    Tells visitor visit.followers
      (if visit.descriptor.isComplex && !visit.descriptor.multiValued then
        inner visit.below members
      else pure ()) := by
  simp only [Visit.followers, hvisit]
  split
  · exact hinner visit.below members
  · exact .nil

theorem tells_visitElement (visit : Visit Json) (helement : visit.element.isSome = true)
    (hinner : ∀ ancestors members,
      Tells visitor (startsOf ancestors members visit.descriptor.subAttributes)
        (inner ancestors members)) :
    Tells visitor [visit] (visitElement visitor inner visit) := by
  refine Tells.below ?_
  cases hvisit : visit.content with
  | object members => exact tells_object hvisit hinner
  | array items =>
      have hnone : visit.followers = [] := by
        simp [Visit.followers, hvisit, Option.isSome_iff_ne_none.mp helement]
      rw [hnone]
      exact .nil
  | _ =>
      rw [Visit.followers, hvisit]
      exact .nil

theorem tells_visitWhole (visit : Visit Json) (helement : visit.element = none)
    (hinner : ∀ ancestors members,
      Tells visitor (startsOf ancestors members visit.descriptor.subAttributes)
        (inner ancestors members)) :
    Tells visitor [visit] (visitWhole visitor inner visit) := by
  have hsubs : visit.descriptor.element.subAttributes = visit.descriptor.subAttributes := by
    unfold Attribute.element
    split <;> rfl
  refine Tells.below ?_
  cases hvisit : visit.content with
  | object members => exact tells_object hvisit hinner
  | array items =>
      simp only [Visit.followers, hvisit, helement, Option.isNone_none, Bool.and_true]
      split
      · let visitOf (i : Nat) (v : Json) : Visit Json :=
          ⟨visit.descriptor.element, v, visit.below, some i⟩
        have helements : ∀ i v, Tells visitor [visitOf i v]
            (visitElement visitor inner (visitOf i v)) := fun i v =>
          tells_visitElement (visitOf i v) rfl (hsubs ▸ hinner)
        simpa using tells_eachFrom visitOf helements 0 items
      · exact .nil
  | _ =>
      rw [Visit.followers, hvisit]
      exact .nil

end Inner

mutual

theorem tells_walkAttribute : ∀ (ancestors : List (Frame Json)) (members : Members)
    (a : Attribute),
    Tells visitor (startsOf ancestors members [a]) (walkAttribute visitor ancestors members a)
  | ancestors, members, ⟨traits, subs⟩ => by
      rw [walkAttribute]
      exact tells_visitWhole ⟨⟨traits, subs⟩, members.valueOf traits.name, ancestors, none⟩ rfl
        fun ancestors members => tells_walkAll ancestors members subs
termination_by structural _ _ a => a

theorem tells_walkAll : ∀ (ancestors : List (Frame Json)) (members : Members)
    (as : List Attribute),
    Tells visitor (startsOf ancestors members as) (walkAll visitor ancestors members as)
  | _, _, [] => .nil
  | ancestors, members, a :: rest =>
      (tells_walkAttribute ancestors members a).append (tells_walkAll ancestors members rest)
termination_by structural _ _ as => as

end

variable {schema : Schema}

/-- A walk ends well exactly if all visits that it makes do. -/
theorem through_eq_ok_iff : through visitor schema members = .ok () ↔
    ∀ visit, Makes visitor schema members visit → ∃ flow, visitor visit = .ok flow := by
  have htells : Tells visitor (startsOf [] members schema.attributes)
      (through visitor schema members) := tells_walkAll [] members schema.attributes
  cases hresult : through visitor schema members with
  | ok =>
      rw [hresult] at htells
      refine iff_of_true rfl ?_
      rintro visit ⟨start, hstart, hleads⟩
      exact htells start hstart visit hleads
  | error e =>
      rw [hresult] at htells
      obtain ⟨start, hstart, visit, hleads, hfails⟩ := htells
      refine iff_of_false nofun fun hall => ?_
      obtain ⟨flow, hflow⟩ := hall visit ⟨start, hstart, hleads⟩
      simp [hfails] at hflow

/-- A walk that fails makes a visit that fails like it. -/
theorem exists_of_through_eq_error (h : through visitor schema members = .error e) :
    ∃ visit, Makes visitor schema members visit ∧ visitor visit = .error e := by
  have htells : Tells visitor (startsOf [] members schema.attributes)
      (through visitor schema members) := tells_walkAll [] members schema.attributes
  rw [h] at htells
  obtain ⟨start, hstart, visit, hleads, hfails⟩ := htells
  exact ⟨visit, ⟨start, hstart, hleads⟩, hfails⟩

/-- What the visits with which a walk starts have, and what is handed on to followers, all visits of
the walk have. -/
theorem Makes.induction {motive : Visit Json → Prop} (h : Makes visitor schema members visit)
    (hstart : ∀ a ∈ schema.attributes, motive ⟨a, members.valueOf a.name, [], none⟩)
    (hnext : ∀ visit next, motive visit → visitor visit = .ok .goOn → next ∈ visit.followers →
      motive next) : motive visit := by
  obtain ⟨start, hmem, hleads⟩ := h
  have hfirst : motive start := by
    obtain ⟨a, ha, rfl⟩ := List.mem_map.mp hmem
    exact hstart a ha
  clear hmem
  induction hleads with
  | self => exact hfirst
  | step hgo hmem _ ih => exact ih (hnext _ _ hfirst hgo hmem)

/-! ## Paths -/

/-- The names that lead to what is below a container are its own and those that it adds. -/
theorem Visit.names_below (visit : Visit Json) (s : Attribute) (v : Json) :
    (⟨s, v, visit.below, none⟩ : Visit Json).names = visit.names ++ [s.name] := by
  rw [names, below, List.filter_append, List.map_append]
  rfl

/-- The names that lead to an element are those that lead to its array. -/
theorem Visit.names_element (visit : Visit Json) (a : Attribute) (v : Json) (i : Nat) :
    (⟨a, v, visit.below, some i⟩ : Visit Json).names = visit.names := by
  rw [names, below, List.filter_append]
  simp [names, frame]

/-- A visit of a walk is of an attribute that knows the names that lead there. -/
theorem placedAt_of_makes (h : schema.Accepted) (hmakes : Makes visitor schema members visit) :
    visit.descriptor.Sound ∧ visit.descriptor.PlacedAt schema.id visit.names := by
  refine hmakes.induction (motive := fun visit =>
    visit.descriptor.Sound ∧ visit.descriptor.PlacedAt schema.id visit.names) (fun a ha => ?_) ?_
  · obtain ⟨i, hi⟩ := List.mem_iff_getElem?.mp ha
    have hplaced := h.placedAt (List.cons_ne_nil i []) (Schema.follow_cons_of_some hi)
    rw [Schema.namesAlong_cons_of_some hi] at hplaced
    exact ⟨h.sound.sub ha, hplaced⟩
  · rintro visit next ⟨hsound, hplaced⟩ _ hnext
    rcases mem_followers_iff.mp hnext with
      ⟨items, i, v, _, _, _, _, rfl⟩ | ⟨members, s, hs, _, _, _, rfl⟩
    · refine ⟨hsound.element, ?_⟩
      rw [visit.names_element, hsound.element_eq]
      exact ⟨hplaced.path, hplaced.full, fun s hs => hplaced.sub hs⟩
    · rw [visit.names_below]
      exact ⟨hsound.sub hs, hplaced.sub hs⟩

/-- Elements are described as single values. -/
theorem element_of_makes (h : schema.Accepted) (hmakes : Makes visitor schema members visit)
    (hmulti : visit.descriptor.multiValued = true) : visit.element = none := by
  refine (hmakes.induction (motive := fun visit => visit.descriptor.Sound ∧
    (visit.descriptor.multiValued = true → visit.element = none)) (fun a ha => ?_) ?_).2 hmulti
  · exact ⟨h.sound.sub ha, fun _ => rfl⟩
  · rintro visit next ⟨hsound, _⟩ _ hnext
    rcases mem_followers_iff.mp hnext with
      ⟨items, i, v, _, _, _, _, rfl⟩ | ⟨members, s, hs, _, _, _, rfl⟩
    · refine ⟨hsound.element, fun hmulti => ?_⟩
      rw [hsound.element_eq] at hmulti
      cases hmulti
    · exact ⟨hsound.sub hs, fun _ => rfl⟩

/-- The path of a visit is the path of its attribute. -/
theorem path_of_makes (h : schema.Accepted) (hmakes : Makes visitor schema members visit) :
    visit.path = visit.descriptor.path :=
  (placedAt_of_makes h hmakes).2.path.symm

end Scim.Walk
