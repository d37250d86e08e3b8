import Scim.Proofs.Walk.Visits
import Scim.Validation.Types

/-!
# The exact check of types

What the check of types accepts and what it reports, said without the walk.

*Conformance.*  `Conforms a v` says by recursion on the value that it has the type and the
cardinality of its attribute.  An object is read as the attributes read it: each sub-attribute has
the value that its name stands for, or `null`.

*Nodes.*  `Validation.nodes` lists what a resource has to say about its attributes, depth first in
the order of the schema, an array before its elements.  A value conforms exactly if each of its
nodes *fits* (`conforms_iff_nodesOfWhole`), which asks for the form of that node and for nothing
below it.

*The walk.*  The check goes through the nodes in their order and stops at the first one that does
not fit (`checkTypes_eq`).  The path that it reports is made of the names on the way, and that is
the path of the attribute (`path_of_mem_nodesOf`).
-/

namespace Scim

/-- A value has the JSON form of a type. -/
inductive HasForm : Attribute.ValueType → Json → Prop where
  | string (s : String) : HasForm .string (.string s)
  | reference (s : String) : HasForm .reference (.string s)
  | dateTime {s : String} (h : (Instant.ofStrict? s.toList).isSome = true) :
      HasForm .dateTime (.string s)
  | boolean (b : Bool) : HasForm .boolean (.bool b)
  | integer (i : Int) : HasForm .integer (.number (.integer i))
  | decimal (n : Json.Number) : HasForm .decimal (.number n)
  | complex (members : Members) : HasForm .complex (.object members)

/-- A value of the type and the cardinality of an attribute, where the members of an object are
those that the names of the sub-attributes stand for. -/
inductive Conforms : Attribute → Json → Prop where
  | null {a : Attribute} : Conforms a .null
  | array {a : Attribute} {items : List Json} (multi : a.multiValued = true)
      (elements : ∀ v ∈ items, Conforms a.singleValued v) : Conforms a (.array items)
  | object {a : Attribute} {members : Members} (single : a.multiValued = false)
      (complex : a.isComplex = true)
      (below : ∀ s ∈ a.subAttributes, Conforms s (Members.valueOf members s.name)) :
      Conforms a (.object members)
  | simple {a : Attribute} {v : Json} (single : a.multiValued = false)
      (simple : a.isComplex = false) (form : HasForm a.type v) : Conforms a v

/-- The form of a type is what the check asks for. -/
theorem hasForm_iff {type : Attribute.ValueType} {v : Json} :
    HasForm type v ↔ Validation.hasType type v = true := by
  constructor
  · intro h
    cases h with
    | dateTime h => exact h
    | _ => rfl
  · intro h
    match type, v, h with
    | .string, .string s, _ => exact .string s
    | .reference, .string s, _ => exact .reference s
    | .dateTime, .string _, h => exact .dateTime h
    | .boolean, .bool b, _ => exact .boolean b
    | .integer, .number (.integer i), _ => exact .integer i
    | .decimal, .number n, _ => exact .decimal n
    | .complex, .object members, _ => exact .complex members

/-- No type has the form of an array. -/
theorem not_hasForm_array {type : Attribute.ValueType} {items : List Json} :
    ¬ HasForm type (.array items) := nofun

namespace Conforms

variable {a : Attribute} {members : Members} {items : List Json} {v : Json}

/-- Only a complex type has objects. -/
theorem isComplex_of_hasForm (h : HasForm a.type (.object members)) : a.isComplex = true := by
  generalize htype : a.type = type at h
  cases h
  exact decide_eq_true htype

/-- Only a single-valued complex attribute has objects. -/
theorem object_iff : Conforms a (.object members) ↔
    a.multiValued = false ∧ a.isComplex = true ∧
      ∀ s ∈ a.subAttributes, Conforms s (members.valueOf s.name) := by
  constructor
  · intro h
    cases h with
    | object single complex below => exact ⟨single, complex, below⟩
    | simple _ simple form =>
        rw [isComplex_of_hasForm form] at simple
        cases simple
  · rintro ⟨single, complex, below⟩
    exact .object single complex below

/-- Only a multi-valued attribute has arrays. -/
theorem array_iff : Conforms a (.array items) ↔
    a.multiValued = true ∧ ∀ v ∈ items, Conforms a.singleValued v := by
  constructor
  · intro h
    cases h with
    | array multi elements => exact ⟨multi, elements⟩
    | simple _ _ form => exact absurd form not_hasForm_array
  · rintro ⟨multi, elements⟩
    exact .array multi elements

/-- A value that is no container conforms if it is `null` or has the form of the type. -/
theorem scalar_iff (harray : v.array? = none) (hobject : v.object? = none) :
    Conforms a v ↔ v = .null ∨ a.multiValued = false ∧ HasForm a.type v := by
  constructor
  · intro h
    cases h with
    | null => exact .inl rfl
    | array => cases harray
    | object => cases hobject
    | simple single _ form => exact .inr ⟨single, form⟩
  · rintro (rfl | ⟨single, form⟩)
    · exact .null
    · refine .simple single (decide_eq_false fun htype => ?_) form
      rw [htype] at form
      cases form
      cases hobject

end Conforms

namespace Validation

/-! ## Nodes -/

/-- A value that the check comes to, with the dotted names that lead to it and its description. -/
structure Node where
  /-- The names that lead to the value, joined by dots. -/
  path : String
  /-- The description of the value. -/
  descriptor : Attribute
  /-- The value. -/
  value : Json

namespace Node

/-- The value has the form that its description asks for, whatever is below it. -/
def Fits (n : Node) : Prop :=
  n.value = .null ∨
    n.descriptor.multiValued = true ∧ (∃ items, n.value = .array items) ∨
    n.descriptor.multiValued = false ∧ HasForm n.descriptor.type n.value

/-- What the description asks for. -/
def expectation (n : Node) : Expectation :=
  if n.descriptor.multiValued then .array else .single n.descriptor.type

/-- The check of one node. -/
def check (n : Node) : Except Error Unit :=
  match unmet? n.descriptor n.value with
  | some expected => .error (.invalidType n.path expected)
  | none => .ok ()

end Node

/-- The nodes of a single value, where `inner` has those of the members of an object. -/
def nodesOfSingle (path : String) (inner : Members → List Node) (a : Attribute) (v : Json) :
    List Node :=
  ⟨path, a, v⟩ ::
    match v with
    | .object members => if a.isComplex && !a.multiValued then inner members else []
    | _ => []

/-- The nodes of the value of an attribute: the value, then what is in each of its elements or in
its members. -/
def nodesOfWhole (path : String) (inner : Members → List Node) (a : Attribute) (v : Json) :
    List Node :=
  match v with
  | .array items =>
      ⟨path, a, v⟩ ::
        if a.multiValued then items.flatMap (nodesOfSingle path inner a.singleValued) else []
  | _ => nodesOfSingle path inner a v

mutual

/-- The nodes of one attribute of an object, behind the names that lead to the object. -/
def nodesOf (front : List String) (members : Members) : Attribute → List Node
  | ⟨traits, subs⟩ =>
      nodesOfWhole (".".intercalate (front ++ [traits.name]))
        (fun below => nodesAmong (front ++ [traits.name]) below subs) ⟨traits, subs⟩
        (members.valueOf traits.name)
termination_by structural a => a

/-- The nodes of the attributes of an object in their order. -/
def nodesAmong (front : List String) (members : Members) : List Attribute → List Node
  | [] => []
  | a :: rest => nodesOf front members a ++ nodesAmong front members rest
termination_by structural as => as

end

/-- The nodes of a resource, depth first in the order of the schema. -/
def nodes (schema : Schema) (r : Resource) : List Node :=
  nodesAmong [] r.members schema.attributes

/-! ## What fits -/

variable {n : Node} {ns : List Node} {e : Error} {a : Attribute} {v : Json} {path : String}
  {inner : Members → List Node}

namespace Node

/-- A node fits exactly if the check finds nothing wrong with it. -/
theorem fits_iff : n.Fits ↔ unmet? n.descriptor n.value = none := by
  obtain ⟨path, a, v⟩ := n
  show (v = .null ∨ _ ∨ _) ↔ unmet? a v = none
  unfold unmet?
  cases a.multiValued with
  | true => cases v <;> simp [Json.isNull, Json.array?]
  | false =>
      rw [hasForm_iff]
      cases v <;> simp [Json.isNull]

theorem check_of_fits (h : n.Fits) : n.check = .ok () := by
  rw [check, fits_iff.mp h]

/-- What is reported of a node that does not fit. -/
theorem check_of_not_fits (h : ¬ n.Fits) :
    n.check = .error (.invalidType n.path n.expectation) := by
  have hunmet : unmet? n.descriptor n.value = some n.expectation := by
    rw [fits_iff] at h
    unfold unmet? at h ⊢
    rw [expectation]
    split at h
    case isTrue => exact absurd rfl h
    case isFalse hnull =>
        rw [if_neg hnull]
        split at h
        case isTrue hmulti =>
            rw [if_pos hmulti, if_pos hmulti, if_neg fun harray => h (if_pos harray)]
        case isFalse hmulti =>
            rw [if_neg hmulti, if_neg hmulti, if_neg fun hform => h (if_pos hform)]
  rw [check, hunmet]

end Node

instance decidableFits (n : Node) : Decidable n.Fits := decidable_of_iff _ Node.fits_iff.symm

/-- The check of nodes in their order reports the first one that does not fit, if there is one. -/
theorem forM_check (ns : List Node) :
    forM ns Node.check =
      match ns.find? fun n => !decide n.Fits with
      | some n => .error (.invalidType n.path n.expectation)
      | none => .ok () := by
  induction ns with
  | nil => rfl
  | cons n rest ih =>
      rw [List.forM_cons]
      by_cases hn : n.Fits
      · rw [Node.check_of_fits hn, ok_bind, ih, List.find?_cons_of_neg (by simpa using hn)]
      · rw [Node.check_of_not_fits hn, error_bind, List.find?_cons_of_pos (by simpa using hn)]

theorem forM_check_eq_ok : forM ns Node.check = .ok () ↔ ∀ n ∈ ns, n.Fits := by
  have hnone : (ns.find? fun n => !decide n.Fits) = none ↔ ∀ n ∈ ns, n.Fits := by
    rw [List.find?_eq_none]
    simp
  rw [forM_check, ← hnone]
  cases ns.find? fun n => !decide n.Fits with
  | none => exact iff_of_true rfl rfl
  | some n => exact iff_of_false nofun nofun

theorem forM_check_eq_error : forM ns Node.check = .error e ↔
    ∃ front n back, ns = front ++ n :: back ∧ (∀ m ∈ front, m.Fits) ∧ ¬ n.Fits ∧
      e = .invalidType n.path n.expectation := by
  have hsome : ∀ n, (ns.find? fun n => !decide n.Fits) = some n ↔
      ∃ front back, ns = front ++ n :: back ∧ (∀ m ∈ front, m.Fits) ∧ ¬ n.Fits := by
    intro n
    rw [List.find?_eq_some_iff_append]
    constructor
    · rintro ⟨hn, front, back, hsplit, hfront⟩
      exact ⟨front, back, hsplit, by simpa using hfront, by simpa using hn⟩
    · rintro ⟨front, back, hsplit, hfront, hn⟩
      exact ⟨by simpa using hn, front, back, hsplit, by simpa using hfront⟩
  rw [forM_check]
  cases hfound : ns.find? fun n => !decide n.Fits with
  | none =>
      refine iff_of_false nofun ?_
      rintro ⟨front, n, back, hsplit, hfront, hn, _⟩
      cases hfound.symm.trans ((hsome n).mpr ⟨front, back, hsplit, hfront, hn⟩)
  | some n =>
      constructor
      · rintro ⟨⟩
        obtain ⟨front, back, hsplit, hfront, hn⟩ := (hsome n).mp hfound
        exact ⟨front, n, back, hsplit, hfront, hn, rfl⟩
      · rintro ⟨front, m, back, hsplit, hfront, hm, rfl⟩
        obtain rfl := Option.some.inj
          (hfound.symm.trans ((hsome m).mpr ⟨front, back, hsplit, hfront, hm⟩))
        rfl

/-! ## Conformance node by node -/

/-- The node of an object fits if its attribute is single-valued and complex. -/
theorem fits_object_iff {members : Members} :
    Node.Fits ⟨path, a, .object members⟩ ↔ a.multiValued = false ∧ a.isComplex = true := by
  constructor
  · rintro (hnull | ⟨_, _, harray⟩ | ⟨hsingle, hform⟩)
    · cases hnull
    · cases harray
    · exact ⟨hsingle, Conforms.isComplex_of_hasForm hform⟩
  · rintro ⟨hsingle, hcomplex⟩
    have htype : a.type = .complex := of_decide_eq_true hcomplex
    exact .inr (.inr ⟨hsingle, htype ▸ .complex members⟩)

/-- The node of an array fits if its attribute is multi-valued. -/
theorem fits_array_iff {items : List Json} :
    Node.Fits ⟨path, a, .array items⟩ ↔ a.multiValued = true := by
  constructor
  · rintro (hnull | ⟨hmulti, _⟩ | ⟨_, hform⟩)
    · cases hnull
    · exact hmulti
    · exact absurd hform not_hasForm_array
  · intro hmulti
    exact .inr (.inl ⟨hmulti, items, rfl⟩)

/-- A value that is no container fits if it is `null` or has the form of the type. -/
theorem fits_scalar_iff (harray : v.array? = none) :
    Node.Fits ⟨path, a, v⟩ ↔ v = .null ∨ a.multiValued = false ∧ HasForm a.type v := by
  refine or_congr_right (or_iff_right ?_)
  rintro ⟨_, items, rfl⟩
  cases harray

/-- A value conforms if its nodes as a single value fit, unless it is an array of values. -/
theorem conforms_iff_nodesOfSingle (path : String)
    (hv : a.multiValued = false ∨ v.array? = none)
    (hinner : ∀ members : Members, (∀ n ∈ inner members, n.Fits) ↔
      ∀ s ∈ a.subAttributes, Conforms s (members.valueOf s.name)) :
    (∀ n ∈ nodesOfSingle path inner a v, n.Fits) ↔ Conforms a v := by
  rw [nodesOfSingle.eq_def, List.forall_mem_cons]
  cases v with
  | object members =>
      rw [fits_object_iff, Conforms.object_iff, and_assoc]
      refine and_congr_right fun hsingle => and_congr_right fun hcomplex => ?_
      rw [hsingle, hcomplex]
      exact hinner members
  | array items =>
      rcases hv with hsingle | harray
      · rw [fits_array_iff, Conforms.array_iff, hsingle]
        exact iff_of_false (fun h => nomatch h.1) (fun h => nomatch h.1)
      · cases harray
  | _ =>
      rw [fits_scalar_iff rfl, Conforms.scalar_iff rfl rfl]
      exact and_iff_left fun _ hn => absurd hn List.not_mem_nil

/-- A value conforms if its nodes fit. -/
theorem conforms_iff_nodesOfWhole (path : String)
    (hinner : ∀ members : Members, (∀ n ∈ inner members, n.Fits) ↔
      ∀ s ∈ a.subAttributes, Conforms s (members.valueOf s.name)) :
    (∀ n ∈ nodesOfWhole path inner a v, n.Fits) ↔ Conforms a v := by
  cases v with
  | array items =>
      rw [nodesOfWhole, List.forall_mem_cons, fits_array_iff, Conforms.array_iff]
      refine and_congr_right fun hmulti => ?_
      rw [if_pos hmulti]
      have helement : ∀ v, (∀ n ∈ nodesOfSingle path inner a.singleValued v, n.Fits) ↔
          Conforms a.singleValued v :=
        fun v => conforms_iff_nodesOfSingle path (.inl rfl) hinner
      constructor
      · intro h v hv
        exact (helement v).mp fun n hn => h n (List.mem_flatMap.mpr ⟨v, hv, hn⟩)
      · intro h n hn
        obtain ⟨v, hv, hn⟩ := List.mem_flatMap.mp hn
        exact (helement v).mpr (h v hv) n hn
  | _ => exact conforms_iff_nodesOfSingle path (.inr rfl) hinner

mutual

/-- The value of an attribute conforms if its nodes fit. -/
theorem conforms_iff_nodesOf : ∀ (front : List String) (members : Members) (a : Attribute),
    (∀ n ∈ nodesOf front members a, n.Fits) ↔ Conforms a (members.valueOf a.name)
  | front, members, ⟨traits, subs⟩ => by
      rw [nodesOf]
      exact conforms_iff_nodesOfWhole _
        fun inner => conforms_iff_nodesAmong (front ++ [traits.name]) inner subs
termination_by structural _ _ a => a

/-- The values of attributes conform if their nodes fit. -/
theorem conforms_iff_nodesAmong : ∀ (front : List String) (members : Members)
    (as : List Attribute),
    (∀ n ∈ nodesAmong front members as, n.Fits) ↔
      ∀ a ∈ as, Conforms a (members.valueOf a.name)
  | _, _, [] => iff_of_true (fun _ hn => absurd hn List.not_mem_nil)
      fun _ ha => absurd ha List.not_mem_nil
  | front, members, a :: rest => by
      rw [nodesAmong, List.forall_mem_append, List.forall_mem_cons,
        conforms_iff_nodesOf front members a, conforms_iff_nodesAmong front members rest]
termination_by structural _ _ as => as

end

/-! ## The walk -/

variable {visit : Walk.Visit Json}
  {go : List (Walk.Frame Json) → Members → Except Error Unit}

/-- The names that containers give to what is in them. -/
def namesIn (ancestors : List (Walk.Frame Json)) : List String :=
  (ancestors.filter fun f => !f.isElement).map fun f => f.descriptor.name

/-- A visit is the check of its node. -/
theorem visitType_eq (visit : Walk.Visit Json) :
    visitType visit = Node.check ⟨visit.path, visit.descriptor, visit.content⟩ >>=
      fun _ => .ok .goOn := by
  rw [visitType, Node.check]
  dsimp only
  cases unmet? visit.descriptor visit.content <;> rfl

theorem visitElement_eq (hgo : ∀ members, go visit.below members = forM (inner members) Node.check) :
    Walk.visitElement visitType go visit =
      forM (nodesOfSingle visit.path inner visit.descriptor visit.content) Node.check := by
  rw [Walk.visitElement, visitType_eq, bind_assoc, nodesOfSingle.eq_def, List.forM_cons]
  refine bind_congr fun _ => ?_
  rw [ok_bind]
  cases visit.content with
  | object members =>
      dsimp only
      rw [hgo, apply_ite fun ns => forM ns Node.check]
      rfl
  | _ => rfl

theorem eachFrom_eq {items : List Json} {position : Nat} {action : Nat → Json → Except Error Unit}
    {nodesOfItem : Json → List Node}
    (h : ∀ i v, action i v = forM (nodesOfItem v) Node.check) :
    Walk.eachFrom position action items = forM (items.flatMap nodesOfItem) Node.check := by
  induction items generalizing position with
  | nil => rfl
  | cons v rest ih => rw [Walk.eachFrom, h, ih, List.flatMap_cons, List.forM_append]

theorem visitWhole_eq (htwin : visit.descriptor.element = visit.descriptor.singleValued)
    (hgo : ∀ ancestors, namesIn ancestors = visit.names →
      ∀ members, go ancestors members = forM (inner members) Node.check) :
    Walk.visitWhole visitType go visit =
      forM (nodesOfWhole visit.path inner visit.descriptor visit.content) Node.check := by
  obtain ⟨a, v, ancestors, element⟩ := visit
  have hsingle := visitElement_eq (hgo (Walk.Visit.below ⟨a, v, ancestors, element⟩) rfl)
  cases v with
  | array items =>
      have helement : ∀ (i : Nat) (w : Json),
          Walk.visitElement visitType go
              ⟨a.element, w, Walk.Visit.below ⟨a, .array items, ancestors, element⟩, some i⟩ =
            forM (nodesOfSingle (Walk.Visit.path ⟨a, .array items, ancestors, element⟩) inner
              a.singleValued w) Node.check := by
        intro i w
        have hnames := Walk.Visit.names_element ⟨a, .array items, ancestors, element⟩ a.element w i
        rw [visitElement_eq (hgo _ hnames), Walk.Visit.path, hnames]
        exact congrArg (fun d => forM (nodesOfSingle _ inner d w) Node.check) htwin
      rw [Walk.visitWhole, visitType_eq, bind_assoc, nodesOfWhole, List.forM_cons]
      refine bind_congr fun _ => ?_
      rw [ok_bind]
      dsimp only
      rw [eachFrom_eq helement, apply_ite fun ns => forM ns Node.check]
      rfl
  | _ => exact hsingle

mutual

/-- The walk through the value of an attribute checks its nodes. -/
theorem walkAttribute_eq_forM : ∀ (ancestors : List (Walk.Frame Json)) (members : Members)
    (a : Attribute), a.Sound →
    Walk.walkAttribute visitType ancestors members a =
      forM (nodesOf (namesIn ancestors) members a) Node.check
  | ancestors, members, ⟨traits, subs⟩, hsound => by
      have hnames : (⟨⟨traits, subs⟩, members.valueOf traits.name, ancestors, none⟩ :
          Walk.Visit Json).names = namesIn ancestors ++ [traits.name] := by
        rw [Walk.Visit.names, Walk.Visit.below, List.filter_append, List.map_append]
        rfl
      rw [Walk.walkAttribute, nodesOf, ← hnames]
      refine visitWhole_eq hsound.element_eq fun below hbelow inner => ?_
      rw [walkAll_eq_forM below inner subs fun s hs => hsound.sub hs, hbelow]
termination_by structural _ _ a => a

/-- The walk through the values of attributes checks their nodes. -/
theorem walkAll_eq_forM : ∀ (ancestors : List (Walk.Frame Json)) (members : Members)
    (as : List Attribute), (∀ a ∈ as, a.Sound) →
    Walk.walkAll visitType ancestors members as =
      forM (nodesAmong (namesIn ancestors) members as) Node.check
  | _, _, [], _ => rfl
  | ancestors, members, a :: rest, hsound => by
      obtain ⟨ha, hrest⟩ := List.forall_mem_cons.mp hsound
      rw [Walk.walkAll, nodesAmong, List.forM_append, walkAttribute_eq_forM ancestors members a ha,
        walkAll_eq_forM ancestors members rest hrest]
termination_by structural _ _ as => as

end

/-- The check of types goes through the nodes of the resource. -/
theorem checkTypes_eq {schema : Schema} (hsound : schema.root.Sound) (r : Resource) :
    checkTypes schema r = forM (nodes schema r) Node.check :=
  walkAll_eq_forM [] r.members schema.attributes fun _ hs => hsound.sub hs

/-- The check of types accepts a resource exactly if the values of its attributes conform. -/
theorem checkTypes_eq_ok_iff {schema : Schema} (hsound : schema.root.Sound) (r : Resource) :
    checkTypes schema r = .ok () ↔
      ∀ a ∈ schema.attributes, Conforms a (r.members.valueOf a.name) := by
  rw [checkTypes_eq hsound, forM_check_eq_ok, nodes, conforms_iff_nodesAmong]

/-! ## Paths -/

theorem path_of_mem_nodesOfSingle (ha : a.path = path)
    (hinner : ∀ members : Members, ∀ n ∈ inner members, n.path = n.descriptor.path) :
    ∀ n ∈ nodesOfSingle path inner a v, n.path = n.descriptor.path := by
  rw [nodesOfSingle.eq_def]
  refine List.forall_mem_cons.mpr ⟨ha.symm, ?_⟩
  cases v with
  | object members =>
      dsimp only
      split
      case isTrue => exact hinner members
      case isFalse => exact fun _ hn => absurd hn List.not_mem_nil
  | _ => exact fun _ hn => absurd hn List.not_mem_nil

theorem path_of_mem_nodesOfWhole (ha : a.path = path)
    (hinner : ∀ members : Members, ∀ n ∈ inner members, n.path = n.descriptor.path) :
    ∀ n ∈ nodesOfWhole path inner a v, n.path = n.descriptor.path := by
  cases v with
  | array items =>
      rw [nodesOfWhole]
      refine List.forall_mem_cons.mpr ⟨ha.symm, ?_⟩
      split
      case isTrue =>
          intro n hn
          obtain ⟨v, _, hn⟩ := List.mem_flatMap.mp hn
          exact path_of_mem_nodesOfSingle (a := a.singleValued) ha hinner n hn
      case isFalse => exact fun _ hn => absurd hn List.not_mem_nil
  | _ => exact path_of_mem_nodesOfSingle ha hinner

mutual

/-- The names that lead to a node make the path of its attribute. -/
theorem path_of_mem_nodesOf {schemaId : String} : ∀ (front : List String) (members : Members)
    (a : Attribute), a.PlacedAt schemaId (front ++ [a.name]) →
    ∀ n ∈ nodesOf front members a, n.path = n.descriptor.path
  | front, members, ⟨traits, subs⟩, hplaced => by
      rw [nodesOf]
      exact path_of_mem_nodesOfWhole hplaced.path fun inner =>
        path_of_mem_nodesAmong (front ++ [traits.name]) inner subs fun s hs => hplaced.sub hs
termination_by structural _ _ a => a

/-- The names that lead to the nodes of siblings make the paths of their attributes. -/
theorem path_of_mem_nodesAmong {schemaId : String} : ∀ (front : List String) (members : Members)
    (as : List Attribute), (∀ a ∈ as, a.PlacedAt schemaId (front ++ [a.name])) →
    ∀ n ∈ nodesAmong front members as, n.path = n.descriptor.path
  | _, _, [], _ => fun _ hn => absurd hn List.not_mem_nil
  | front, members, a :: rest, hplaced => by
      obtain ⟨ha, hrest⟩ := List.forall_mem_cons.mp hplaced
      rw [nodesAmong]
      exact List.forall_mem_append.mpr ⟨path_of_mem_nodesOf front members a ha,
        path_of_mem_nodesAmong front members rest hrest⟩
termination_by structural _ _ as => as

end

theorem path_of_mem_nodes {schema : Schema} (h : schema.Accepted) (r : Resource) :
    ∀ n ∈ nodes schema r, n.path = n.descriptor.path := by
  have hplaced : ∀ a ∈ schema.attributes, a.PlacedAt schema.id ([] ++ [a.name]) := by
    intro a ha
    obtain ⟨i, hi⟩ := List.mem_iff_getElem?.mp ha
    have hplaced := h.placedAt (List.cons_ne_nil i []) (Schema.follow_cons_of_some hi)
    rwa [Schema.namesAlong_cons_of_some hi] at hplaced
  exact path_of_mem_nodesAmong [] r.members schema.attributes hplaced

/-- Under every accepted schema, the check of types accepts exactly the resources whose attributes
have values that conform.  Else it reports the path of the attribute of the first node that does
not fit, and what that attribute asks for. -/
theorem checkTypes_exact {schema : Schema} (h : schema.Accepted) (r : Resource) :
    (checkTypes schema r = .ok () ↔
      ∀ a ∈ schema.attributes, Conforms a (r.members.valueOf a.name)) ∧
    ∀ e, checkTypes schema r = .error e ↔
      ∃ front n back, nodes schema r = front ++ n :: back ∧ (∀ m ∈ front, m.Fits) ∧ ¬ n.Fits ∧
        e = .invalidType n.descriptor.path n.expectation := by
  refine ⟨checkTypes_eq_ok_iff h.sound r, fun e => ?_⟩
  rw [checkTypes_eq h.sound, forM_check_eq_error]
  refine exists_congr fun front => exists_congr fun n => exists_congr fun back =>
    and_congr_right fun hsplit => ?_
  rw [path_of_mem_nodes h r n (by simp [hsplit])]

/-- A member of a group is `null`, and the next one has a number for an identifier, which is
reported before the text that follows it. -/
theorem checkTypes_exact_group :
    let r : Resource := ⟨[("MEMBERS", .array [.null, .object [("value", .number (.integer 7))],
      .string "u3"]), ("displayName", .string "Ops")]⟩
    Schema.group.Accepted ∧
      checkTypes Schema.group r = .error (.invalidType "members.value" (.single .string)) ∧
      (¬ ∀ a ∈ Schema.group.attributes, Conforms a (r.members.valueOf a.name)) ∧
      ∃ front n back, nodes Schema.group r = front ++ n :: back ∧ (∀ m ∈ front, m.Fits) ∧
        ¬ n.Fits ∧ Error.invalidType "members.value" (.single .string) =
          .invalidType n.descriptor.path n.expectation := by
  intro r
  have hgroup : Schema.group.Accepted := .built Schema.build_group
  have herror : checkTypes Schema.group r =
      .error (.invalidType "members.value" (.single .string)) := rfl
  obtain ⟨haccepts, hreports⟩ := checkTypes_exact hgroup r
  refine ⟨hgroup, herror, fun hconforms => ?_, (hreports _).mp herror⟩
  cases herror.symm.trans (haccepts.mpr hconforms)

end Validation

end Scim
