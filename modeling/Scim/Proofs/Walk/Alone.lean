import Scim.Proofs.Schema.Index
import Scim.Proofs.Walk.Siblings
import Scim.Walk.Single

/-!
# A walk beside nothing

There are two walks, one through a single resource and one beside a reference.  A visitor that
changes nothing can be taken on either of them.  What it sees of a visit is a `Sight`, and a
`Decision` tells from the sight whether the walk goes below it, does not, or ends.

Beside no reference the two walks see the same visits in the same order and end in the same way
(`through_alone`).  They differ in one thing only: the walk beside a reference puts back what it has
visited, and so takes away the members that it has visited and found to be `null`.
`Decision.left` says which these are.

`Mirrors` compares a part of one walk with the same part of the other.  It holds of each visit, and
it is kept when parts follow each other.  What carries it along the attributes of an object is that
putting back one of them leaves the members under the names of the others as they were.
-/

namespace Scim.Walk

open Attribute (DistinctNames)

variable {α β ε : Type}

/-! ## Sights -/

/-- What can be seen of a visit, whatever the walk knows about the containers. -/
structure Sight where
  /-- The dotted path. -/
  path : String
  /-- The description of what is visited. -/
  descriptor : Attribute
  /-- The position in its array, if it is an element. -/
  element : Option Nat
  /-- The value that is visited. -/
  value : Json
  /-- The containers around it, the outermost first. -/
  ancestors : List (Frame Unit)

/-- The container without what the walk knows about it. -/
def Frame.bare (f : Frame α) : Frame Unit := ⟨f.descriptor, (), f.isElement⟩

namespace Visit

variable {a : Attribute} {c : α} {ancestors : List (Frame α)} {element : Option Nat}

/-- What can be seen of a visit that comes to a value. -/
def sight (visit : Visit α) (v : Json) : Sight :=
  ⟨visit.path, visit.descriptor, visit.element, v, visit.ancestors.map Frame.bare⟩

theorem below_bare : (⟨a, (), ancestors.map Frame.bare, element⟩ : Visit Unit).below =
    (⟨a, c, ancestors, element⟩ : Visit α).below.map Frame.bare := by
  rw [below, below, List.map_append]
  rfl

theorem names_bare : (⟨a, (), ancestors.map Frame.bare, element⟩ : Visit Unit).names =
    (⟨a, c, ancestors, element⟩ : Visit α).names := by
  rw [names, names, below_bare, List.filter_map, List.map_map]
  rfl

/-- What the walk knows about the containers is not seen. -/
theorem sight_bare (v : Json) : (⟨a, (), ancestors.map Frame.bare, element⟩ : Visit Unit).sight v =
    (⟨a, c, ancestors, element⟩ : Visit α).sight v := by
  have hframes : (ancestors.map Frame.bare).map Frame.bare = ancestors.map Frame.bare := by
    rw [List.map_map]
    rfl
  rw [sight, sight, path, path, names_bare, hframes]

end Visit

/-! ## Decisions -/

/-- What a visitor that changes nothing decides at each visit. -/
abbrev Decision (ε : Type) := Sight → Except ε Flow

namespace Decision

variable (decision : Decision ε)

/-- Takes note of a sight and decides. -/
def look (sight : Sight) : StateM (List Sight) (Except ε Flow) := do
  modify (· ++ [sight])
  pure (decision sight)

/-- The decision on a walk through one resource. -/
def visitor : Visitor (ExceptT ε (StateM (List Sight))) := fun visit =>
  ExceptT.mk (decision.look (visit.sight visit.content))

/-- The decision on a walk beside a reference, where any elements may be paired. -/
def editor (pairs : Attribute → Json → Json → Bool) : Editor (StateM (List Sight)) ε where
  visit visit v := do
    let decided ← decision.look (visit.sight v)
    pure (v, decided)
  pairs := pairs

/-! ### What a walk leaves -/

/-- What is left of an element. -/
def leftInElement (inner : List (Frame Unit) → Members → Members) (visit : Visit Unit)
    (v : Json) : Json :=
  match decision (visit.sight v) with
  | .ok .goOn =>
      match v with
      | .object members =>
          if visit.descriptor.isComplex && !visit.descriptor.multiValued then
            .object (inner visit.below members)
          else v
      | _ => v
  | _ => v

/-- What is left of the value of an attribute. -/
def leftInWhole (inner : List (Frame Unit) → Members → Members) (visit : Visit Unit)
    (v : Json) : Json :=
  match decision (visit.sight v) with
  | .ok .goOn =>
      let a := visit.descriptor
      match v with
      | .array items =>
          if a.multiValued then
            .array (items.mapIdx fun i v =>
              leftInElement decision inner ⟨a.element, (), visit.below, some i⟩ v)
          else v
      | .object members =>
          if a.isComplex && !a.multiValued then .object (inner visit.below members) else v
      | _ => v
  | _ => v

mutual

/-- What is left of the member that an attribute stands for. -/
def leftUnder (ancestors : List (Frame Unit)) (m : String × Json) :
    Attribute → Option (String × Json)
  | ⟨traits, subs⟩ =>
      if m.2.isNull then none
      else some (m.1, leftInWhole decision
        (fun ancestors members => members.filterMap fun m => leftAmong ancestors members m subs)
        ⟨⟨traits, subs⟩, (), ancestors, none⟩ m.2)
termination_by structural a => a

/-- What is left of a member of an object.  It is visited if one of the attributes stands for
it. -/
def leftAmong (ancestors : List (Frame Unit)) (members : Members) (m : String × Json) :
    List Attribute → Option (String × Json)
  | [] => some m
  | a :: rest =>
      if members.key? a.name = some m.1 then leftUnder ancestors m a
      else leftAmong ancestors members m rest
termination_by structural as => as

end

/-- What is left of the members of an object. -/
def leftBelow (as : List Attribute) (ancestors : List (Frame Unit)) (members : Members) :
    Members :=
  members.filterMap fun m => leftAmong decision ancestors members m as

/-- What is left of the members of a resource: everything but the members that are visited and
`null`. -/
def left (schema : Schema) (members : Members) : Members :=
  decision.leftBelow schema.attributes [] members

variable {decision} {inner : List (Frame Unit) → Members → Members} {visit : Visit Unit}
  {ancestors : List (Frame Unit)} {members original : Members} {m : String × Json}
  {a : Attribute} {rest as : List Attribute} {v : Json}

theorem isNull_leftInWhole : (decision.leftInWhole inner visit v).isNull = v.isNull := by
  unfold leftInWhole
  split
  · cases v <;> dsimp only <;> first | rfl | (split <;> rfl)
  · rfl

theorem leftUnder_eq : decision.leftUnder ancestors m a =
    if m.2.isNull then none
    else some (m.1, decision.leftInWhole (decision.leftBelow a.subAttributes)
      ⟨a, (), ancestors, none⟩ m.2) := by
  obtain ⟨traits, subs⟩ := a
  rw [leftUnder]
  rfl

/-- A member that no attribute stands for is left as it is. -/
theorem leftAmong_of_unnamed (h : ∀ a ∈ as, members.key? a.name ≠ some m.1) :
    decision.leftAmong ancestors members m as = some m := by
  induction as with
  | nil => rfl
  | cons a rest ih =>
      obtain ⟨ha, hrest⟩ := List.forall_mem_cons.mp h
      rw [leftAmong, if_neg ha, ih hrest]

/-- Putting back what is left of one attribute does its share of what all attributes leave. -/
theorem leftAmong_store (hdistinct : DistinctNames (a :: rest)) (hordered : members.InOrder)
    (hunder : members.under a.name = original.under a.name) :
    (Editor.store members a.name (⟨decision.leftInWhole (decision.leftBelow a.subAttributes)
        ⟨a, (), ancestors, none⟩ (members.valueOf a.name), .ok ()⟩ : Edited ε Json)).value.filterMap
        (fun m => decision.leftAmong ancestors original m rest) =
      members.filterMap fun m => decision.leftAmong ancestors original m (a :: rest) := by
  have hkeys : original.key? a.name = members.key? a.name := by
    rw [← Members.key?_under original, ← hunder, Members.key?_under]
  have hself : ∀ key w, members.key? a.name = some key →
      decision.leftAmong ancestors original (key, w) (a :: rest) =
        decision.leftUnder ancestors (key, w) a := by
    intro key w hkey
    rw [leftAmong, hkeys, if_pos hkey]
  refine Editor.filterMap_store hordered (fun m _ hne => ?other) (fun hkey hfull => ?new)
    (fun key hkey hnull => ?drop) (fun key hkey hput => ?put)
  case other => rw [leftAmong, hkeys, if_neg hne]
  case new =>
      -- A member that is missing is visited as `null`, and stays missing.
      rw [isNull_leftInWhole, Members.valueOf_eq_null hkey] at hfull
      cases hfull
  case drop =>
      rw [isNull_leftInWhole] at hnull
      rw [hself _ _ hkey, leftUnder_eq, if_pos hnull]
  case put =>
      have hfull := hput.resolve_right fun h => h rfl
      rw [isNull_leftInWhole] at hfull
      have hunnamed : ∀ b ∈ rest, original.key? b.name ≠ some key := by
        intro b hb hkey'
        have halike := Text.alike_trans
          ((Text.alike_comm ..).trans (Members.alike_of_key? hkey)) (Members.alike_of_key? hkey')
        rw [(List.pairwise_cons.mp hdistinct).1 b hb] at halike
        cases halike
      rw [leftAmong_of_unnamed hunnamed, hself _ _ hkey, leftUnder_eq, hfull,
        if_neg Bool.false_ne_true]

end Decision

/-! ## Walks that mirror each other -/

/-- Two walks see the same and end in the same way, and `left` is what the second one leaves if it
ends well. -/
def Mirrors (alone : ExceptT ε (StateM (List Sight)) Unit)
    (beside : StateM (List Sight) (Edited ε α)) (left : α) : Prop :=
  ∀ log, ∃ kept, beside.run log = (⟨kept, (alone.run.run log).1⟩, (alone.run.run log).2) ∧
    ((alone.run.run log).1 = .ok () → kept = left)

namespace Mirrors

variable {alone next : ExceptT ε (StateM (List Sight)) Unit}
  {beside : StateM (List Sight) (Edited ε α)} {u : α} {w : β}

/-- A walk that has nothing to visit mirrors one that has nothing to visit. -/
theorem done : Mirrors (pure ()) (pure (⟨u, .ok ()⟩ : Edited ε α)) u :=
  fun _ => ⟨u, rfl, fun _ => rfl⟩

/-- Walks that mirror each other can be gone on with, unless they have ended. -/
theorem bind {k : Edited ε α → StateM (List Sight) (Edited ε β)} (h : Mirrors alone beside u)
    (herror : ∀ u cause, ∃ w, k ⟨u, .error cause⟩ = pure ⟨w, .error cause⟩)
    (hok : Mirrors next (k ⟨u, .ok ()⟩) w) :
    Mirrors (alone >>= fun _ => next) (beside >>= k) w := by
  intro log
  obtain ⟨kept, hrun, hkept⟩ := h log
  rw [ExceptT.run_bind, StateT.run_bind, StateT.run_bind, hrun]
  rcases halone : alone.run.run log with ⟨cause | ⟨⟩, after⟩
  case error =>
      obtain ⟨w', hk⟩ := herror kept cause
      exact ⟨w', congrArg (StateT.run · after) hk, nofun⟩
  case ok =>
      obtain rfl := hkept (by rw [halone])
      exact hok after

/-- What a walk leaves can be made into something else. -/
theorem edit {f : Edited ε α → Edited ε β} (h : Mirrors alone beside u)
    (hf : ∀ edited, (f edited).result = edited.result) :
    Mirrors alone (beside >>= fun edited => pure (f edited)) (f ⟨u, .ok ()⟩).value := by
  intro log
  obtain ⟨kept, hrun, hkept⟩ := h log
  rw [StateT.run_bind, hrun]
  refine ⟨(f ⟨kept, (alone.run.run log).1⟩).value, ?_, fun hok => ?_⟩
  · exact congrArg (fun result => (Edited.mk _ result, (alone.run.run log).2)) (hf _)
  · rw [hok, hkept hok]

end Mirrors

/-! ## Visits -/

variable {decision : Decision ε} {pairs : Attribute → Json → Json → Bool}

/-- Both walks go on from a visit as the decision says. -/
theorem mirrors_visit {visit : Visit Json} {visit' : Visit (Option Json)} {v : Json} {u : α}
    {k : Flow → ExceptT ε (StateM (List Sight)) Unit}
    {k' : Json × Except ε Flow → StateM (List Sight) (Edited ε α)}
    (hsight : visit.sight visit.content = visit'.sight v)
    (herror : ∀ cause, ∃ w, k' (v, .error cause) = pure ⟨w, .error cause⟩)
    (hok : ∀ flow, decision (visit'.sight v) = .ok flow → Mirrors (k flow) (k' (v, .ok flow)) u) :
    Mirrors (decision.visitor visit >>= k) ((decision.editor pairs).visit visit' v >>= k') u := by
  intro log
  have halone : (decision.visitor visit).run.run log =
      (decision (visit'.sight v), log ++ [visit'.sight v]) := by
    rw [← hsight]
    rfl
  have hbeside : ((decision.editor pairs).visit visit' v).run log =
      ((v, decision (visit'.sight v)), log ++ [visit'.sight v]) := rfl
  rw [ExceptT.run_bind, StateT.run_bind, StateT.run_bind, hbeside, halone]
  cases hdecision : decision (visit'.sight v) with
  | error cause =>
      obtain ⟨w, hk⟩ := herror cause
      exact ⟨w, congrArg (StateT.run · _) hk, nofun⟩
  | ok flow => exact hok flow hdecision _

variable {inner : List (Frame Json) → Members → ExceptT ε (StateM (List Sight)) Unit}
  {inner' : Editor.Inner (StateM (List Sight)) ε}
  {left : List (Frame Unit) → Members → Members} {ancestors : List (Frame Json)}
  {ancestors' : List (Frame (Option Json))} {a : Attribute} {as : List Attribute}
  {element : Option Nat} {v : Json} {items : List Json} {members original : Members}

/-- The walks below objects mirror each other, wherever the objects are. -/
def MirrorsBelow (inner : List (Frame Json) → Members → ExceptT ε (StateM (List Sight)) Unit)
    (inner' : Editor.Inner (StateM (List Sight)) ε)
    (left : List (Frame Unit) → Members → Members) : Prop :=
  ∀ (ancestors : List (Frame Json)) (ancestors' : List (Frame (Option Json))) (members : Members),
    ancestors.map Frame.bare = ancestors'.map Frame.bare → (Json.object members).Ordered →
    Mirrors (inner ancestors members) (inner' ancestors' none members)
      (left (ancestors.map Frame.bare) members)

theorem sight_congr (hframes : ancestors.map Frame.bare = ancestors'.map Frame.bare) (w : Json) :
    (⟨a, v, ancestors, element⟩ : Visit Json).sight w =
      (⟨a, none, ancestors', element⟩ : Visit (Option Json)).sight w := by
  rw [← Visit.sight_bare, hframes]
  exact Visit.sight_bare w

theorem below_congr (hframes : ancestors.map Frame.bare = ancestors'.map Frame.bare) :
    (Visit.below ⟨a, v, ancestors, element⟩).map Frame.bare =
      (Visit.below ⟨a, none, ancestors', element⟩).map Frame.bare := by
  rw [← Visit.below_bare, hframes]
  exact Visit.below_bare

/-- The walks below an object mirror each other. -/
theorem mirrors_object (hbelow : MirrorsBelow inner inner' left)
    (hframes : ancestors.map Frame.bare = ancestors'.map Frame.bare)
    (hordered : (Json.object members).Ordered) :
    Mirrors (inner (Visit.below ⟨a, v, ancestors, element⟩) members)
      (Editor.belowObject inner' ⟨a, none, ancestors', element⟩ members)
      (.object (left (Visit.below ⟨a, (), ancestors.map Frame.bare, element⟩) members)) := by
  rw [Visit.below_bare (c := v)]
  exact (hbelow _ _ members (below_congr hframes) hordered).edit fun _ => rfl

/-- The visits of an element mirror each other. -/
theorem mirrors_element (hbelow : MirrorsBelow inner inner' left)
    (hframes : ancestors.map Frame.bare = ancestors'.map Frame.bare) (hordered : v.Ordered) :
    Mirrors (visitElement decision.visitor inner ⟨a, v, ancestors, element⟩)
      ((decision.editor pairs).visitElement inner' ⟨a, none, ancestors', element⟩ v)
      (decision.leftInElement left ⟨a, (), ancestors.map Frame.bare, element⟩ v) := by
  have hsight : (⟨a, v, ancestors, element⟩ : Visit Json).sight v =
      (⟨a, none, ancestors', element⟩ : Visit (Option Json)).sight v := sight_congr hframes v
  refine mirrors_visit hsight (fun cause => ⟨_, rfl⟩) fun flow hflow => ?_
  rw [← hsight, ← Visit.sight_bare] at hflow
  rw [Decision.leftInElement.eq_def, hflow]
  cases flow with
  | skip => exact .done
  | goOn =>
      cases v with
      | object members =>
          dsimp only
          split
          · exact mirrors_object hbelow hframes hordered
          · exact .done
      | _ => exact .done

/-- The visits of the elements of an array mirror each other. -/
theorem mirrors_elements (position : Nat) (hbelow : MirrorsBelow inner inner' left)
    (hframes : ancestors.map Frame.bare = ancestors'.map Frame.bare)
    (hordered : ∀ u ∈ items, u.Ordered) :
    Mirrors
      (eachFrom position (fun i u => visitElement decision.visitor inner
        ⟨a.element, u, Visit.below ⟨a, v, ancestors, element⟩, some i⟩) items)
      ((decision.editor pairs).visitElements inner' ⟨a, none, ancestors', element⟩ position items)
      (items.mapIdx fun i u => decision.leftInElement left
        ⟨a.element, (), Visit.below ⟨a, (), ancestors.map Frame.bare, element⟩,
          some (position + i)⟩ u) := by
  induction items generalizing position with
  | nil => exact .done
  | cons u rest ih =>
      obtain ⟨hu, hrest⟩ := List.forall_mem_cons.mp hordered
      -- Without a reference an element meets nothing, whatever is paired.
      have hpartners : (decision.editor pairs).partners a none u = [] := by
        unfold Editor.partners
        split <;> rfl
      have hothers := ih (position + 1) hrest
      rw [eachFrom, Editor.visitElements, hpartners, List.mapIdx_cons]
      rw [Visit.below_bare (c := v)] at hothers ⊢
      refine (mirrors_element hbelow (below_congr hframes) hu).bind (fun _ _ => ⟨_, rfl⟩) ?_
      have hshift : ∀ i, position + 1 + i = position + (i + 1) := by omega
      simp only [hshift] at hothers
      exact hothers.edit fun _ => rfl

/-- The visits of the value of an attribute mirror each other. -/
theorem mirrors_whole (hbelow : MirrorsBelow inner inner' left)
    (hframes : ancestors.map Frame.bare = ancestors'.map Frame.bare) (hordered : v.Ordered) :
    Mirrors (visitWhole decision.visitor inner ⟨a, v, ancestors, element⟩)
      ((decision.editor pairs).visitWhole inner' ⟨a, none, ancestors', element⟩ v)
      (decision.leftInWhole left ⟨a, (), ancestors.map Frame.bare, element⟩ v) := by
  have hsight : (⟨a, v, ancestors, element⟩ : Visit Json).sight v =
      (⟨a, none, ancestors', element⟩ : Visit (Option Json)).sight v := sight_congr hframes v
  refine mirrors_visit hsight (fun cause => ⟨_, rfl⟩) fun flow hflow => ?_
  rw [← hsight, ← Visit.sight_bare] at hflow
  rw [Decision.leftInWhole.eq_def, hflow]
  cases flow with
  | skip => exact .done
  | goOn =>
      cases v with
      | array items =>
          dsimp only
          split
          · have hitems : Mirrors
                (eachFrom 0 (fun i u => visitElement decision.visitor inner
                  ⟨a.element, u, Visit.below ⟨a, .array items, ancestors, element⟩, some i⟩) items)
                ((decision.editor pairs).visitElements inner' ⟨a, none, ancestors', element⟩ 0
                  items) _ :=
              mirrors_elements 0 hbelow hframes fun u hu => Json.ordered_item hordered hu
            simp only [Nat.zero_add] at hitems
            exact hitems.edit fun _ => rfl
          · exact .done
      | object members =>
          dsimp only
          split
          · exact mirrors_object hbelow hframes hordered
          · exact .done
      | _ => exact .done

/-! ## Attributes -/

mutual

/-- The walks through the value of an attribute mirror each other. -/
theorem mirrors_attribute {frames : List (Frame Json)} {frames' : List (Frame (Option Json))}
    {members original : Members} (hframes : frames.map Frame.bare = frames'.map Frame.bare)
    (horiginal : (Json.object original).Ordered) : ∀ (a : Attribute), a.Sound →
    members.under a.name = original.under a.name →
    Mirrors (walkAttribute decision.visitor frames original a)
      ((decision.editor pairs).walkAttribute frames' none members a)
      (Editor.store members a.name (⟨decision.leftInWhole (decision.leftBelow a.subAttributes)
        ⟨a, (), frames.map Frame.bare, none⟩ (members.valueOf a.name), .ok ()⟩ :
          Edited ε Json)).value
  | ⟨traits, subs⟩, hsound, hunder => by
      have hvalue : members.valueOf traits.name = original.valueOf traits.name :=
        Members.valueOf_congr hunder
      rw [walkAttribute, Editor.walkAttribute, ← hvalue]
      have hbelow : MirrorsBelow
          (fun frames members => walkAll decision.visitor frames members subs)
          (fun frames reference members =>
            (decision.editor pairs).walkAll frames reference members subs)
          (decision.leftBelow subs) := by
        intro inside inside' inner hinside hinner
        exact mirrors_all hinside hinner subs hsound.distinct (fun s hs => hsound.sub hs)
          (Json.ordered_keys hinner) fun _ _ => rfl
      exact (mirrors_whole hbelow hframes
        (hvalue ▸ Json.ordered_valueOf horiginal traits.name)).edit fun _ => Editor.result_store
termination_by structural a => a

/-- The walks through the values of attributes mirror each other. -/
theorem mirrors_all {frames : List (Frame Json)} {frames' : List (Frame (Option Json))}
    {members original : Members} (hframes : frames.map Frame.bare = frames'.map Frame.bare)
    (horiginal : (Json.object original).Ordered) : ∀ (as : List Attribute), DistinctNames as →
    (∀ a ∈ as, a.Sound) → members.InOrder →
    (∀ a ∈ as, members.under a.name = original.under a.name) →
    Mirrors (walkAll decision.visitor frames original as)
      ((decision.editor pairs).walkAll frames' none members as)
      (members.filterMap fun m => decision.leftAmong (frames.map Frame.bare) original m as)
  | [], _, _, _, _ => by
      have hkept : (members.filterMap fun m =>
          decision.leftAmong (frames.map Frame.bare) original m []) = members :=
        List.filterMap_some
      rw [hkept]
      exact .done
  | a :: rest, hdistinct, hsound, hordered, hunder => by
      obtain ⟨hbeside, hrest⟩ := List.pairwise_cons.mp hdistinct
      rw [walkAll, Editor.walkAll, ← Decision.leftAmong_store hdistinct hordered
        (hunder a List.mem_cons_self)]
      refine (mirrors_attribute hframes horiginal a (hsound a List.mem_cons_self)
        (hunder a List.mem_cons_self)).bind (fun _ _ => ⟨_, rfl⟩) ?_
      -- The values of the other attributes are still those that the other walk reads.
      refine mirrors_all hframes horiginal rest hrest
        (fun b hb => hsound b (List.mem_cons_of_mem a hb))
        (Editor.inOrder_store hordered a.name _) fun b hb => ?_
      rw [Editor.under_store (hbeside b hb), hunder b (List.mem_cons_of_mem a hb)]
termination_by structural as => as

end

/-- Beside no reference both walks see the same visits in the same order and end in the same way.
If they end well then the walk beside a reference has taken away the members that it has visited
and that are `null`, and has changed nothing else. -/
theorem through_alone {schema : Schema} {members : Members} (h : schema.Accepted)
    (hordered : (Json.object members).Ordered) (decision : Decision ε)
    (pairs : Attribute → Json → Json → Bool) :
    let alone := (through decision.visitor schema members).run.run []
    let beside := ((decision.editor pairs).through schema none members).run []
    beside.2 = alone.2 ∧ beside.1.result = alone.1 ∧
      (alone.1 = .ok () → beside.1.value = decision.left schema members) := by
  have hmirrors : Mirrors (through decision.visitor schema members)
      ((decision.editor pairs).through schema none members) (decision.left schema members) :=
    mirrors_all rfl hordered schema.attributes h.sound.distinct (fun a ha => h.sound.sub ha)
      (Json.ordered_keys hordered) fun _ _ => rfl
  obtain ⟨kept, hrun, hkept⟩ := hmirrors []
  refine ⟨congrArg Prod.snd hrun, congrArg (·.1.result) hrun, fun hok => ?_⟩
  exact (congrArg (·.1.value) hrun).trans (hkept hok)

/-- The members that are `null` go, at the top and in an element, where they are described.  What is
below `meta` stays, since the walk does not go there. -/
theorem through_alone_group :
    let decision : Decision Unit := fun sight => .ok (if sight.path = "meta" then .skip else .goOn)
    let members : Members := [("DisplayName", .null), ("extra", .null),
      ("members", .array [.object [("display", .null), ("value", .string "u1")], .null]),
      ("meta", .object [("created", .null)])]
    Schema.group.Accepted ∧ (Json.object members).Ordered ∧
      ((through decision.visitor Schema.group members).run.run []).1 = .ok () ∧
      (((decision.editor pairsByKey).through Schema.group none members).run []).1.value =
        [("extra", .null), ("members", .array [.object [("value", .string "u1")], .null]),
          ("meta", .object [("created", .null)])] := by
  intro decision members
  have hgroup : Schema.group.Accepted := .built Schema.build_group
  have hordered : (Json.object members).Ordered := by decide
  have hok : ((through decision.visitor Schema.group members).run.run []).1 = .ok () := rfl
  obtain ⟨_, _, hvalue⟩ := through_alone hgroup hordered decision pairsByKey
  exact ⟨hgroup, hordered, hok, (hvalue hok).trans rfl⟩

end Scim.Walk
