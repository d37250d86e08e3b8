import Scim.Proofs.Walk.Visits
import Scim.Walk.Paired

/-!
# The containers around a visit

A walk keeps the containers around each visit.  `Around` builds their chain from the schema and the
resource alone: an object of a single-valued attribute adds one container, and an object in an array
adds two, the array and the element.  A visit is of a member of such an object or of an element of
an array in it (`Occurs`), and then its path is the path of its attribute, and its position tells
whether it is of an element (`Visit.Placed`).

The visits are those that a walk takes note of.  A visitor may skip, fail, keep a state and, beside
a reference, write what it likes, and taking notes changes nothing in what it does.  `Noted` compares
a part of a walk with the same part that takes notes, and is kept when parts follow each other.
-/

namespace Scim.Walk

/-! ## Chains of containers -/

/-- What a walk knows about values, of a type `α`, and about the objects among them, of a type
`κ`. -/
structure View (α κ : Type) where
  /-- The member of an object under a name. -/
  value : κ → String → α
  /-- A value is an object. -/
  opens : α → κ → Prop
  /-- A value has an element at a position. -/
  item : α → Nat → α → Prop

namespace View

/-- A walk through one resource knows its values. -/
def resource : View Json Members where
  value := Members.valueOf
  opens v members := v = .object members
  item v i w := ∃ items, v = .array items ∧ items[i]? = some w

/-- A walk beside a reference knows the values of the reference.  An element is beside any element
of the reference or beside nothing. -/
def reference : View (Option Json) (Option Members) where
  value members name := members.bind fun r => r.named? name
  opens v members := members = v.bind Json.object?
  item v _ w := w = none ∨ ∃ items, ∃ r ∈ items, v = some (.array items) ∧ w = some r

end View

section

variable {α κ : Type} (view : View α κ) (schema : Schema) (root : κ)

/-- The containers around the members of an object, the outermost first, with the attributes of the
members and what is known about the object. -/
inductive Around : List (Frame α) → List Attribute → κ → Prop
  /-- Nothing is around the members of the resource. -/
  | root : Around [] schema.attributes root
  /-- The object is the value of a member. -/
  | object {frames : List (Frame α)} {as : List Attribute} {known inner : κ} {a : Attribute}
      (h : Around frames as known) (ha : a ∈ as) (hcomplex : a.isComplex = true)
      (hsingle : a.multiValued = false) (hopens : view.opens (view.value known a.name) inner) :
      Around (frames ++ [⟨a, view.value known a.name, false⟩]) a.subAttributes inner
  /-- The object is an element of the array in a member. -/
  | element {frames : List (Frame α)} {as : List Attribute} {known inner : κ} {a : Attribute}
      {i : Nat} {v : α} (h : Around frames as known) (ha : a ∈ as) (hcomplex : a.isComplex = true)
      (hmulti : a.multiValued = true) (hitem : view.item (view.value known a.name) i v)
      (hopens : view.opens v inner) :
      Around (frames ++ [⟨a, view.value known a.name, false⟩, ⟨a.singleValued, v, true⟩])
        a.subAttributes inner

/-- The visits of the values in a resource. -/
inductive Occurs : Visit α → Prop
  /-- The value of a member, as a whole. -/
  | whole {frames : List (Frame α)} {as : List Attribute} {known : κ} {a : Attribute}
      (h : Around view schema root frames as known) (ha : a ∈ as) :
      Occurs ⟨a, view.value known a.name, frames, none⟩
  /-- An element of the array in a member. -/
  | element {frames : List (Frame α)} {as : List Attribute} {known : κ} {a : Attribute} {i : Nat}
      {v : α} (h : Around view schema root frames as known) (ha : a ∈ as)
      (hmulti : a.multiValued = true) (hitem : view.item (view.value known a.name) i v) :
      Occurs ⟨a.singleValued, v, frames ++ [⟨a, view.value known a.name, false⟩], some i⟩

/-- A visit has the path of its attribute, the containers around it are those around its value, and
it has a position if it is of an element of the innermost container. -/
structure Visit.Placed (visit : Visit α) : Prop where
  path : visit.path = visit.descriptor.path
  occurs : Occurs view schema root visit
  element : visit.element.isSome = true ↔ ∃ f, visit.ancestors.getLast? = some f ∧
    f.descriptor.multiValued = true ∧ visit.descriptor = f.descriptor.singleValued

end

section

variable {α κ : Type} {view : View α κ} {schema : Schema} {root known : κ}
  {frames : List (Frame α)} {as : List Attribute} {a : Attribute} {visit : Visit α}

/-- The names that containers add to a path. -/
def namesOf (frames : List (Frame α)) : List String :=
  (frames.filter fun f => !f.isElement).map fun f => f.descriptor.name

/-- The members of an object are described by sound attributes that know the names that lead
there. -/
theorem Around.placedAt (h : Around view schema root frames as known) (hschema : schema.Accepted) :
    ∀ a ∈ as, a.Sound ∧ a.PlacedAt schema.id (namesOf frames ++ [a.name]) := by
  induction h with
  | root =>
      intro a ha
      obtain ⟨i, hi⟩ := List.mem_iff_getElem?.mp ha
      have hplaced := hschema.placedAt (List.cons_ne_nil i []) (Schema.follow_cons_of_some hi)
      rw [Schema.namesAlong_cons_of_some hi] at hplaced
      exact ⟨hschema.sound.sub ha, hplaced⟩
  | @object frames as known inner a _ ha _ _ _ ih =>
      intro s hs
      obtain ⟨hsound, hplaced⟩ := ih a ha
      have hnames : namesOf (frames ++ [⟨a, view.value known a.name, false⟩]) =
          namesOf frames ++ [a.name] := by simp [namesOf]
      rw [hnames]
      exact ⟨hsound.sub hs, hplaced.sub hs⟩
  | @element frames as known inner a i v _ ha _ _ _ _ ih =>
      intro s hs
      obtain ⟨hsound, hplaced⟩ := ih a ha
      have hnames : namesOf (frames ++
          [⟨a, view.value known a.name, false⟩, ⟨a.singleValued, v, true⟩]) =
          namesOf frames ++ [a.name] := by simp [namesOf]
      rw [hnames]
      exact ⟨hsound.sub hs, hplaced.sub hs⟩

/-- The innermost container around the members of an object is described as a single value. -/
theorem Around.single (h : Around view schema root frames as known) :
    ∀ f, frames.getLast? = some f → f.descriptor.multiValued = false := by
  intro f hf
  cases h with
  | root => cases hf
  | object _ _ _ hsingle =>
      rw [List.getLast?_concat] at hf
      cases hf
      exact hsingle
  | element =>
      rw [List.append_cons, List.getLast?_concat] at hf
      cases hf
      rfl

/-- The visits of the values in a resource are placed. -/
theorem Occurs.placed (h : Occurs view schema root visit) (hschema : schema.Accepted) :
    visit.Placed view schema root := by
  refine ⟨?_, h, ?_⟩
  · cases h with
    | @whole frames as known a haround ha =>
        obtain ⟨_, hplaced⟩ := haround.placedAt hschema a ha
        rw [hplaced.path, Visit.path, Visit.names]
        simp [namesOf, Visit.below, Visit.frame]
    | @element frames as known a i v haround ha _ _ =>
        obtain ⟨_, hplaced⟩ := haround.placedAt hschema a ha
        have hpath : a.singleValued.path = a.path := rfl
        rw [hpath, hplaced.path, Visit.path, Visit.names]
        simp [namesOf, Visit.below, Visit.frame]
  · cases h with
    | whole haround _ =>
        refine iff_of_false Bool.false_ne_true ?_
        rintro ⟨f, hf, hmulti, _⟩
        rw [haround.single f hf] at hmulti
        cases hmulti
    | element _ _ hmulti _ =>
        exact iff_of_true rfl ⟨_, List.getLast?_concat, hmulti, rfl⟩

end

/-! ## Taking notes -/

section

variable {σ β γ V : Type} {P : V → Prop}

/-- Does something and takes a note. -/
def note (visit : V) (x : StateM σ β) : StateM (σ × List V) β := fun (state, notes) =>
  let (v, state) := x.run state
  (v, state, notes ++ [visit])

/-- Taking notes changes nothing else, and all notes have the property. -/
def Noted (P : V → Prop) (noted : StateM (σ × List V) β) (plain : StateM σ β) : Prop :=
  ∀ state notes, ∃ more,
    noted.run (state, notes) = ((plain.run state).1, (plain.run state).2, notes ++ more) ∧
      ∀ visit ∈ more, P visit

namespace Noted

theorem pure (v : β) : Noted P (σ := σ) (Pure.pure v) (Pure.pure v) := fun _ notes =>
  ⟨[], by rw [List.append_nil]; rfl, fun _ h => absurd h List.not_mem_nil⟩

theorem note {visit : V} (h : P visit) (x : StateM σ β) : Noted P (note visit x) x := fun _ _ =>
  ⟨[visit], rfl, fun _ hmem => List.mem_singleton.mp hmem ▸ h⟩

/-- Parts of a walk that are done one after the other. -/
theorem bind {x : StateM (σ × List V) β} {y : StateM σ β} {f : β → StateM (σ × List V) γ}
    {g : β → StateM σ γ} (h : Noted P x y) (hnext : ∀ v, Noted P (f v) (g v)) :
    Noted P (x >>= f) (y >>= g) := by
  intro state notes
  obtain ⟨more, hmore, hnotes⟩ := h state notes
  obtain ⟨more', hmore', hnotes'⟩ := hnext (y.run state).1 (y.run state).2 (notes ++ more)
  refine ⟨more ++ more', ?_, List.forall_mem_append.mpr ⟨hnotes, hnotes'⟩⟩
  show (f (x.run (state, notes)).1).run (x.run (state, notes)).2 = _
  rw [hmore, hmore', List.append_assoc]
  rfl

/-- Parts of a walk that can fail. -/
theorem bindExcept {ε : Type} {x : ExceptT ε (StateM (σ × List V)) β} {y : ExceptT ε (StateM σ) β}
    {f : β → ExceptT ε (StateM (σ × List V)) γ} {g : β → ExceptT ε (StateM σ) γ}
    (h : Noted P x.run y.run) (hnext : ∀ v, Noted P (f v).run (g v).run) :
    Noted P (x >>= f).run (y >>= g).run := by
  refine Noted.bind (f := ExceptT.bindCont f) (g := ExceptT.bindCont g) h ?_
  rintro (e | v)
  · exact .pure _
  · exact hnext v

end Noted

end

/-! ## The walk through one resource -/

section

variable {σ ε : Type} (visitor : Visitor (ExceptT ε (StateM σ)))

/-- The visitor that takes notes of its visits. -/
def noting : Visitor (ExceptT ε (StateM (σ × List (Visit Json)))) := fun visit =>
  ExceptT.mk (note visit (visitor visit).run)

/-- The visits that a walk makes when its visitor starts from a state. -/
def visitsOf (schema : Schema) (members : Members) (state : σ) : List (Visit Json) :=
  ((through (noting visitor) schema members).run.run (state, [])).2.2

variable {visitor} {schema : Schema} {root members : Members} {frames : List (Frame Json)}
  {as : List Attribute} {a : Attribute} {visit : Visit Json}
  {inner : List (Frame Json) → Members → ExceptT ε (StateM σ) Unit}
  {inner' : List (Frame Json) → Members → ExceptT ε (StateM (σ × List (Visit Json))) Unit}

/-- A computation is noted by one that visits what is in a resource. -/
abbrev NotedIn (schema : Schema) (root : Members)
    (noted : ExceptT ε (StateM (σ × List (Visit Json))) Unit) (plain : ExceptT ε (StateM σ) Unit) :
    Prop :=
  Noted (Occurs .resource schema root) noted.run plain.run

theorem noted_eachFrom {action : Nat → Json → ExceptT ε (StateM σ) Unit}
    {action' : Nat → Json → ExceptT ε (StateM (σ × List (Visit Json))) Unit} {items : List Json}
    (position : Nat)
    (h : ∀ i v, items[i]? = some v →
      NotedIn schema root (action' (position + i) v) (action (position + i) v)) :
    NotedIn schema root (eachFrom position action' items) (eachFrom position action items) := by
  induction items generalizing position with
  | nil => exact .pure _
  | cons v rest ih =>
      refine .bindExcept (h 0 v rfl) fun _ => ih (position + 1) fun i w hw => ?_
      rw [Nat.add_assoc, Nat.add_comm 1]
      exact h (i + 1) w hw

theorem noted_visitElement (hvisit : Occurs .resource schema root visit)
    (hinner : ∀ members, visit.content = .object members → visit.descriptor.isComplex = true →
      NotedIn schema root (inner' visit.below members) (inner visit.below members)) :
    NotedIn schema root (visitElement (noting visitor) inner' visit)
      (visitElement visitor inner visit) := by
  refine .bindExcept (.note hvisit _) fun flow => ?_
  cases flow with
  | skip => exact .pure _
  | goOn =>
      cases hcontent : visit.content with
      | object members =>
          dsimp only
          split
          case isTrue h =>
              rw [Bool.and_eq_true] at h
              exact hinner members hcontent h.1
          case isFalse => exact .pure _
      | _ => exact .pure _

theorem noted_visitWhole (haround : Around .resource schema root frames as members) (ha : a ∈ as)
    (hschema : schema.Accepted)
    (hinner : ∀ frames members, Around .resource schema root frames a.subAttributes members →
      NotedIn schema root (inner' frames members) (inner frames members)) :
    NotedIn schema root
      (visitWhole (noting visitor) inner' ⟨a, View.resource.value members a.name, frames, none⟩)
      (visitWhole visitor inner ⟨a, View.resource.value members a.name, frames, none⟩) := by
  obtain ⟨hsound, _⟩ := haround.placedAt hschema a ha
  refine .bindExcept (.note (.whole haround ha) _) fun flow => ?_
  cases flow with
  | skip => exact .pure _
  | goOn =>
      dsimp only
      cases hcontent : View.resource.value members a.name with
      | array items =>
          dsimp only
          split
          case isTrue hmulti =>
              refine noted_eachFrom 0 fun i v hv => ?_
              have hitem : View.resource.item (View.resource.value members a.name) i v :=
                ⟨items, hcontent, hv⟩
              have hvisit := Occurs.element haround ha hmulti hitem
              rw [hcontent, ← hsound.element_eq] at hvisit
              rw [Nat.zero_add]
              refine noted_visitElement hvisit fun members' hopens hcomplex => ?_
              rw [hsound.element_eq] at hcomplex
              have hbelow := Around.element haround ha hcomplex hmulti hitem hopens
              rw [hcontent, ← hsound.element_eq, List.append_cons] at hbelow
              exact hinner _ members' hbelow
          case isFalse => exact .pure _
      | object members' =>
          dsimp only
          split
          case isTrue h =>
              simp only [Bool.and_eq_true, Bool.not_eq_true'] at h
              have hbelow := Around.object haround ha h.1 h.2 hcontent
              rw [hcontent] at hbelow
              exact hinner _ members' hbelow
          case isFalse => exact .pure _
      | _ => exact .pure _

variable (visitor) in
mutual

theorem noted_walkAttribute (hschema : schema.Accepted) :
    ∀ (frames : List (Frame Json)) (members : Members) (as : List Attribute) (a : Attribute),
    Around .resource schema root frames as members → a ∈ as →
    NotedIn schema root (walkAttribute (noting visitor) frames members a)
      (walkAttribute visitor frames members a)
  | frames, members, as, ⟨traits, subs⟩, haround, ha => by
      rw [walkAttribute, walkAttribute]
      exact noted_visitWhole haround ha hschema fun frames members hbelow =>
        noted_walkAll hschema frames members subs subs hbelow (List.Subset.refl _)
termination_by structural _ _ _ a => a

theorem noted_walkAll (hschema : schema.Accepted) :
    ∀ (frames : List (Frame Json)) (members : Members) (all as : List Attribute),
    Around .resource schema root frames all members → as ⊆ all →
    NotedIn schema root (walkAll (noting visitor) frames members as)
      (walkAll visitor frames members as)
  | _, _, _, [], _, _ => .pure _
  | frames, members, all, a :: rest, haround, has => by
      obtain ⟨ha, hrest⟩ := List.cons_subset.mp has
      rw [walkAll, walkAll]
      exact .bindExcept (noted_walkAttribute hschema frames members all a haround ha) fun _ =>
        noted_walkAll hschema frames members all rest haround hrest
termination_by structural _ _ _ as => as

end

/-- A walk that takes notes does what it does without them, and notes only what is in the
resource. -/
theorem noted_through (visitor : Visitor (ExceptT ε (StateM σ))) (hschema : schema.Accepted)
    (members : Members) :
    NotedIn schema members (through (noting visitor) schema members)
      (through visitor schema members) :=
  noted_walkAll visitor hschema [] members _ _ .root (List.Subset.refl _)

end

/-! ## The walk beside a reference -/

namespace Editor

variable {σ ε : Type} (w : Editor (StateM σ) ε)

/-- The visitor that takes notes of its visits. -/
def noting : Editor (StateM (σ × List (Visit (Option Json)))) ε where
  visit visit v := note visit (w.visit visit v)
  pairs := w.pairs

/-- The visits that a walk makes when its visitor starts from a state. -/
def visitsOf (schema : Schema) (reference : Option Members) (members : Members) (state : σ) :
    List (Visit (Option Json)) :=
  ((w.noting.through schema reference members).run (state, [])).2.2

variable {w} {schema : Schema} {root reference : Option Members} {members : Members}
  {frames : List (Frame (Option Json))} {as : List Attribute} {a : Attribute}
  {visit : Visit (Option Json)} {v : Json} {inner : Inner (StateM σ) ε}
  {inner' : Inner (StateM (σ × List (Visit (Option Json)))) ε}

/-- A computation is noted by one that visits what is in a reference. -/
abbrev NotedIn {β : Type} (schema : Schema) (root : Option Members)
    (noted : StateM (σ × List (Visit (Option Json))) β) (plain : StateM σ β) : Prop :=
  Noted (Occurs .reference schema root) noted plain

theorem noted_belowObject
    (hinner : NotedIn schema root (inner' visit.below (visit.content.bind Json.object?) members)
      (inner visit.below (visit.content.bind Json.object?) members)) :
    NotedIn schema root (belowObject inner' visit members) (belowObject inner visit members) :=
  .bind hinner fun _ => .pure _

theorem noted_visitElement (v : Json) (hvisit : Occurs .reference schema root visit)
    (hinner : visit.descriptor.isComplex = true → ∀ members,
      NotedIn schema root (inner' visit.below (visit.content.bind Json.object?) members)
        (inner visit.below (visit.content.bind Json.object?) members)) :
    NotedIn schema root (w.noting.visitElement inner' visit v) (w.visitElement inner visit v) := by
  refine .bind (.note hvisit _) ?_
  rintro ⟨v, e | flow⟩
  · exact .pure _
  cases flow with
  | skip => exact .pure _
  | goOn =>
      cases v with
      | object members =>
          dsimp only
          split
          case isTrue h =>
              rw [Bool.and_eq_true] at h
              exact noted_belowObject (hinner h.1 members)
          case isFalse => exact .pure _
      | _ => exact .pure _

variable (visit) in
theorem noted_visitBeside (v : Json) (partners : List Json)
    (hvisit : ∀ r ∈ partners, Occurs .reference schema root { visit with content := some r })
    (hinner : ∀ r ∈ partners, visit.descriptor.isComplex = true → ∀ members,
      NotedIn schema root
        (inner' { visit with content := some r }.below (Json.object? r) members)
        (inner { visit with content := some r }.below (Json.object? r) members)) :
    NotedIn schema root (w.noting.visitBeside inner' visit v partners)
      (w.visitBeside inner visit v partners) := by
  induction partners generalizing v with
  | nil => exact .pure _
  | cons r rest ih =>
      obtain ⟨hr, hrest⟩ := List.forall_mem_cons.mp hvisit
      obtain ⟨hinnerr, hinnerrest⟩ := List.forall_mem_cons.mp hinner
      refine .bind (noted_visitElement v hr hinnerr) ?_
      rintro ⟨v, e | -⟩
      · exact .pure _
      · exact ih v hrest hinnerrest

/-- The partners of an element are elements of the reference. -/
theorem mem_of_mem_partners {reference : Option Json} {r : Json}
    (h : r ∈ w.partners a reference v) : ∃ items, reference = some (.array items) ∧ r ∈ items := by
  rw [partners] at h
  split at h
  case isTrue =>
      have hr := (List.mem_filter.mp h).1
      rcases reference with _ | (_ | _ | _ | _ | items | _)
      case some.array => exact ⟨items, rfl, hr⟩
      all_goals exact absurd hr List.not_mem_nil
  case isFalse => exact absurd h List.not_mem_nil

theorem noted_visitElements (haround : Around .reference schema root frames as reference)
    (ha : a ∈ as) (hmulti : a.multiValued = true) (hschema : schema.Accepted)
    (hinner : ∀ frames reference members,
      Around .reference schema root frames a.subAttributes reference →
      NotedIn schema root (inner' frames reference members) (inner frames reference members))
    (items : List Json) (position : Nat) :
    NotedIn schema root
      (w.noting.visitElements inner'
        ⟨a, View.reference.value reference a.name, frames, none⟩ position items)
      (w.visitElements inner
        ⟨a, View.reference.value reference a.name, frames, none⟩ position items) := by
  obtain ⟨hsound, _⟩ := haround.placedAt hschema a ha
  induction items generalizing position with
  | nil => exact .pure _
  | cons v rest ih =>
      let visitOf (c : Option Json) : Visit (Option Json) :=
        ⟨a.element, c, frames ++ [⟨a, View.reference.value reference a.name, false⟩],
          some position⟩
      have hvisit : ∀ c, View.reference.item (View.reference.value reference a.name) position c →
          Occurs .reference schema root (visitOf c) := by
        intro c hc
        have hoccurs := Occurs.element haround ha hmulti hc
        rwa [← hsound.element_eq] at hoccurs
      have hbelow : ∀ c, View.reference.item (View.reference.value reference a.name) position c →
          a.element.isComplex = true → ∀ members, NotedIn schema root
            (inner' (visitOf c).below (c.bind Json.object?) members)
            (inner (visitOf c).below (c.bind Json.object?) members) := by
        intro c hc hcomplex members
        rw [hsound.element_eq] at hcomplex
        have hinside := Around.element haround ha hcomplex hmulti hc rfl
        rw [← hsound.element_eq, List.append_cons] at hinside
        exact hinner _ _ members hinside
      have hsame : w.noting.partners a (View.reference.value reference a.name) v =
          w.partners a (View.reference.value reference a.name) v := rfl
      rw [visitElements, visitElements]
      dsimp only
      rw [hsame]
      cases hpartners : w.partners a (View.reference.value reference a.name) v with
      | nil =>
          refine .bind (noted_visitElement v (hvisit none (.inl rfl)) (hbelow none (.inl rfl))) ?_
          rintro ⟨v, e | -⟩
          · exact .pure _
          · exact .bind (ih (position + 1)) fun _ => .pure _
      | cons r found =>
          have hitem : ∀ r' ∈ r :: found,
              View.reference.item (View.reference.value reference a.name) position (some r') := by
            intro r' hr'
            obtain ⟨items, hitems, hmem⟩ := mem_of_mem_partners (hpartners ▸ hr')
            exact .inr ⟨items, r', hmem, hitems, rfl⟩
          refine .bind (noted_visitBeside (visitOf none) v (r :: found)
            (fun r' hr' => hvisit _ (hitem r' hr')) fun r' hr' => hbelow _ (hitem r' hr')) ?_
          rintro ⟨v, e | -⟩
          · exact .pure _
          · exact .bind (ih (position + 1)) fun _ => .pure _

theorem noted_visitWhole (haround : Around .reference schema root frames as reference)
    (ha : a ∈ as) (hschema : schema.Accepted) (v : Json)
    (hinner : ∀ frames reference members,
      Around .reference schema root frames a.subAttributes reference →
      NotedIn schema root (inner' frames reference members) (inner frames reference members)) :
    NotedIn schema root
      (w.noting.visitWhole inner' ⟨a, View.reference.value reference a.name, frames, none⟩ v)
      (w.visitWhole inner ⟨a, View.reference.value reference a.name, frames, none⟩ v) := by
  refine .bind (.note (.whole haround ha) _) ?_
  rintro ⟨v, e | flow⟩
  · exact .pure _
  cases flow with
  | skip => exact .pure _
  | goOn =>
      cases v with
      | array items =>
          dsimp only
          split
          case isTrue hmulti =>
              exact .bind (noted_visitElements haround ha hmulti hschema hinner items 0)
                fun _ => .pure _
          case isFalse => exact .pure _
      | object members =>
          dsimp only
          split
          case isTrue h =>
              simp only [Bool.and_eq_true, Bool.not_eq_true'] at h
              exact noted_belowObject (hinner _ _ members (.object haround ha h.1 h.2 rfl))
          case isFalse => exact .pure _
      | _ => exact .pure _

variable (w) in
mutual

theorem noted_walkAttribute (hschema : schema.Accepted) :
    ∀ (frames : List (Frame (Option Json))) (reference : Option Members) (members : Members)
      (as : List Attribute) (a : Attribute),
    Around .reference schema root frames as reference → a ∈ as →
    NotedIn schema root (w.noting.walkAttribute frames reference members a)
      (w.walkAttribute frames reference members a)
  | frames, reference, members, as, ⟨traits, subs⟩, haround, ha => by
      rw [walkAttribute, walkAttribute]
      refine .bind (noted_visitWhole haround ha hschema _ fun frames reference members hbelow =>
        ?_) fun _ => .pure _
      exact noted_walkAll hschema frames reference members subs subs hbelow (List.Subset.refl _)
termination_by structural _ _ _ _ a => a

theorem noted_walkAll (hschema : schema.Accepted) :
    ∀ (frames : List (Frame (Option Json))) (reference : Option Members) (members : Members)
      (all as : List Attribute),
    Around .reference schema root frames all reference → as ⊆ all →
    NotedIn schema root (w.noting.walkAll frames reference members as)
      (w.walkAll frames reference members as)
  | _, _, _, _, [], _, _ => .pure _
  | frames, reference, members, all, a :: rest, haround, has => by
      obtain ⟨ha, hrest⟩ := List.cons_subset.mp has
      rw [walkAll, walkAll]
      refine .bind (noted_walkAttribute hschema frames reference members all a haround ha) ?_
      rintro ⟨members, e | -⟩
      · exact .pure _
      · exact noted_walkAll hschema frames reference members all rest haround hrest
termination_by structural _ _ _ _ as => as

end

/-- A walk that takes notes does what it does without them, and notes only what is beside the
reference. -/
theorem noted_through (w : Editor (StateM σ) ε) (hschema : schema.Accepted)
    (reference : Option Members) (members : Members) :
    NotedIn schema reference (w.noting.through schema reference members)
      (w.through schema reference members) :=
  noted_walkAll w hschema [] reference members _ _ .root (List.Subset.refl _)

end Editor

/-! ## All visits -/

/-- Every visit of a walk has the path of its attribute and the containers around its value, and it
has a position if it is of an element.  This is so in walks through one resource and in walks beside
a reference, whatever the visitor does. -/
theorem placed_of_mem_visitsOf {σ ε : Type} {schema : Schema} (h : schema.Accepted) :
    (∀ (visitor : Visitor (ExceptT ε (StateM σ))) (members : Members) (state : σ),
      ∀ visit ∈ visitsOf visitor schema members state, visit.Placed .resource schema members) ∧
    ∀ (w : Editor (StateM σ) ε) (reference : Option Members) (members : Members) (state : σ),
      ∀ visit ∈ w.visitsOf schema reference members state,
        visit.Placed .reference schema reference := by
  refine ⟨fun visitor members state visit hvisit => ?_,
    fun w reference members state visit hvisit => ?_⟩
  · obtain ⟨notes, hrun, hnotes⟩ := noted_through visitor h members state []
    rw [visitsOf, hrun] at hvisit
    exact (hnotes visit hvisit).placed h
  · obtain ⟨notes, hrun, hnotes⟩ := w.noted_through h reference members state []
    rw [Editor.visitsOf, hrun] at hvisit
    exact (hnotes visit hvisit).placed h

/-- A visitor that counts and ends the walk in the member of a group, and one that adds a member
beside a reference. -/
theorem placed_of_mem_visitsOf_group :
    let visitor : Visitor (ExceptT String (StateM Nat)) := fun visit => do
      modify (· + 1)
      if visit.descriptor.name = "$ref" then throw "closed" else pure .goOn
    let editor : Editor (StateM Nat) String :=
      { visit := fun visit v => pure
          (if visit.path = "members" && v.isNull then .array [.object []] else v, .ok .goOn)
        pairs := pairsByKey }
    let members : Members := [("members", .array [.object [("value", .string "u1")]])]
    Schema.group.Accepted ∧
      (visitsOf visitor Schema.group members 0).map (fun visit => (visit.path, visit.element)) =
        [("displayName", none), ("members", none), ("members", some 0), ("members.value", none),
          ("members.$ref", none)] ∧
      (∀ visit ∈ visitsOf visitor Schema.group members 0,
        visit.Placed .resource Schema.group members) ∧
      ∀ visit ∈ editor.visitsOf Schema.group (some members) [] 0,
        visit.Placed .reference Schema.group (some members) := by
  intro visitor editor members
  have hgroup : Schema.group.Accepted := .built Schema.build_group
  obtain ⟨halone, hbeside⟩ := placed_of_mem_visitsOf (σ := Nat) (ε := String) hgroup
  exact ⟨hgroup, rfl, halone visitor members 0, hbeside editor (some members) [] 0⟩

end Scim.Walk
