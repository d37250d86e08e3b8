import Scim.Proofs.Evaluation.ValueFilters

/-!
# Changes of selected elements

A path of a name and a filter in brackets selects elements of an array.  A request that removes at
the path takes out the elements that the path leads to, in whatever order and however often they
occur, and no others.  A request that replaces at the path puts the value into the place of each of
them, or, with a name behind the bracket, puts it under that name into each of them
(`Request.apply_selected`).

The changes are made to all elements at once (`Context.changeElements`) or to one after the other
(`Context.changeInElements_replace`), where the first selected element that is no object ends them.
-/

namespace Scim

/-- An object with a member of a name set.  Other values are left as they are. -/
def Json.withMember : Json → String → Json → Json
  | .object members, name, v => .object (Members.put (Members.slot members name) v members)
  | w, _, _ => w

/-- Whether a value is an object. -/
def Json.isObject (v : Json) : Bool := v.object?.isSome

namespace Patch

variable {root a element s : Attribute} {members : Members} {items : List Json}
  {name text : String} {limit : Nat} {tree : Filter.Tree} {v : Json}

namespace Context

variable {c : Context} {selects : Json → Bool}

/-- A value that is not `null` is put under a name into an element that is an object. -/
theorem lastInElement_replace (hverb : c.verb = .replace) (hvalue : c.value.isNull = false)
    (hs : element.sub? name = some s) (w : Json) :
    c.lastInElement element (.name name) w =
      if w.isObject then .ok (w.withMember s.name c.value)
      else .error (c.shapeError element.name w) := by
  cases w with
  | object members =>
      rw [lastInElement, last, hs]
      dsimp only
      rw [change, hverb]
      dsimp only
      rw [hvalue]
      rfl
  | _ => rfl

/-- A value that is not `null` is put under a name into all selected elements, unless none is
selected or one that is no object. -/
theorem changeInElements_replace (hverb : c.verb = .replace) (hvalue : c.value.isNull = false)
    (hs : element.sub? name = some s) :
    c.changeInElements element true selects (.name name) items =
      if items.any selects then
        match items.find? fun w => selects w && !w.isObject with
        | some w => .error (c.shapeError element.name w)
        | none => .ok (items.map fun w => if selects w then w.withMember s.name c.value else w)
      else .error (.noTarget c.path) := by
  have heach : ∀ w : Json, (selects w && !w.isObject) = false →
      (if selects w then c.lastInElement element (.name name) w else .ok w) =
        .ok (if selects w then w.withMember s.name c.value else w) := by
    intro w hw
    cases hselected : selects w with
    | false => rfl
    | true =>
        have hobject : w.isObject = true := by simpa [hselected] using hw
        rw [if_pos rfl, if_pos rfl, lastInElement_replace hverb hvalue hs, if_pos hobject]
  cases hany : items.any selects with
  | false => simp [changeInElements, hany, hverb]
  | true =>
      rw [changeInElements, hany, if_neg (by simp), if_pos rfl]
      cases hfind : items.find? fun w => selects w && !w.isObject with
      | none =>
          refine mapM_eq_map fun w hw => heach w ?_
          simpa using List.find?_eq_none.mp hfind w hw
      | some w =>
          obtain ⟨hw, front, back, rfl, hfront⟩ := List.find?_eq_some_iff_append.mp hfind
          obtain ⟨hselected, hobject⟩ := Bool.and_eq_true_iff.mp hw
          refine mapM_eq_error (fun u hu => ⟨_, heach u ?_⟩) ?_
          · exact (Bool.not_eq_true' _).mp (hfront u hu)
          · rw [if_pos hselected, lastInElement_replace hverb hvalue hs,
              if_neg (by simpa using hobject)]

end Context

/-- A name with something in brackets behind it is a trimmed text. -/
theorem trim_attribute_bracket (hname : Path.IsName a.name.toList) (text : String) :
    Text.trim (a.bracket text).toList = (a.bracket text).toList ∧ (a.bracket text).toList ≠ [] :=
  ⟨Path.trim_bracket hname text, by simp [Attribute.bracket]⟩

/-- An operation at a name with a filter behind it changes elements of the array there. -/
theorem Operation.apply_filtered {verb : Verb} (hsub : root.sub? a.name = some a)
    (hvalue : members.valueOf a.name = .array items) (hname : Path.IsName a.name.toList)
    (hcompile : Path.compile limit (a.bracket text) = .ok [.name a.name, .filter tree]) :
    (Operation.mk verb (some (a.bracket text)) v).apply limit root members =
      (Context.changeElements ⟨verb, a.bracket text, v⟩ true (tree.accepts a.element) items).map
        fun made => members.put (members.slot a.name) (.array made) := by
  obtain ⟨htrim, _⟩ := trim_attribute_bracket hname text
  rw [apply_of_compile htrim hcompile]
  exact Context.along_array hsub hvalue (.filter tree) []

/-- With a name behind the filter, the operation makes a change in these elements. -/
theorem Operation.apply_filtered_name {verb : Verb} (hsub : root.sub? a.name = some a)
    (hvalue : members.valueOf a.name = .array items) (hname : Path.IsName a.name.toList)
    (hcompile : Path.compile limit (a.bracket text) = .ok [.name a.name, .filter tree])
    (hname' : Path.IsName name.toList) :
    (Operation.mk verb (some (a.bracket text ++ "." ++ name)) v).apply limit root members =
      (Context.changeInElements ⟨verb, a.bracket text ++ "." ++ name, v⟩ a.element true
        (tree.accepts a.element) (.name name) items).map
          fun made => members.put (members.slot a.name) (.array made) := by
  obtain ⟨htrim, hne⟩ := trim_attribute_bracket hname text
  rw [apply_of_compile (Path.trim_below htrim hne hname')
    (Path.compile_below_bracket hname hname' hcompile)]
  exact Context.along_array hsub hvalue (.filter tree) [.name name]

/-- At the name of a multi-valued attribute with something in brackets, if that is accepted as a
path, requests with one operation change the elements that the path leads to.  A removal takes them
out.  A replacement has no target if there are none, and otherwise puts the value into their
places, or under a name into each of them, which fails at the first one that is no object. -/
theorem Request.apply_selected {schema : Schema} {r : Resource} {steps steps' : List Path.Step}
    (h : schema.Accepted) (ha : a ∈ schema.attributes) (hmulti : a.multiValued = true)
    (hname : Path.IsName a.name.toList)
    (hitems : r.members.named? a.name = some (.array items))
    (hresolved : Path.compile Filter.defaultMaxLength (a.bracket text) = .ok steps)
    (hpatched : Path.compile limit (a.bracket text) = .ok steps') :
    ∃ tree : Filter.Tree, Filter.read limit text = .ok tree ∧
      let path := a.bracket text
      let selects := tree.accepts a.element
      let holding (found : List Json) := r.members.put (r.members.slot a.name) (.array found)
      Path.resolve path schema.root r.toJson = .ok ⟨.array (items.filter selects), a⟩ ∧
      (∀ v, (ofOperations [⟨.remove, some path, v⟩]).apply limit schema r.members =
        .ok (holding (items.filter fun w => !selects w))) ∧
      (∀ v, (ofOperations [⟨.replace, some path, v⟩]).apply limit schema r.members =
        if items.any selects then .ok (holding (items.map fun w => if selects w then v else w))
        else .error (.operation 0 (.noTarget path))) ∧
      ∀ inner s v, Path.IsName inner.toList → a.sub? inner = some s → v.isNull = false →
        (ofOperations [⟨.replace, some (path ++ "." ++ inner), v⟩]).apply limit schema r.members =
          if items.any selects then
            match items.find? fun w => selects w && !w.isObject with
            | some w => .error (.operation 0
                (.path (.shape (path ++ "." ++ inner) a.element.name w.kindName)))
            | none =>
                .ok (holding (items.map fun w => if selects w then w.withMember s.name v else w))
          else .error (.operation 0 (.noTarget (path ++ "." ++ inner))) := by
  have hsub := h.sound.sub?_of_mem ha
  have hvalue := Members.valueOf_of_named? hitems
  obtain ⟨tree, hread, rfl⟩ := Path.exists_of_compile_bracket hname hresolved
  obtain ⟨tree', hread', rfl⟩ := Path.exists_of_compile_bracket hname hpatched
  obtain rfl : tree = tree' := Filter.read_unique hread hread'
  refine ⟨tree, hread', ?_, fun v => ?_, fun v => ?_, fun inner s v hinner hs hv => ?_⟩
  · rw [Path.resolve, Filter.Tree.resolveBy, hresolved]
    exact Path.follow_filter hsub hmulti hvalue
  · rw [Request.apply_one, Operation.apply_filtered hsub hvalue hname hpatched]
    rfl
  · rw [Request.apply_one, Operation.apply_filtered hsub hvalue hname hpatched,
      Context.changeElements]
    cases items.any (tree.accepts a.element) <;> rfl
  · have hs' : a.element.sub? inner = some s := by rw [Attribute.sub?_element, hs]
    rw [Request.apply_one, Operation.apply_filtered_name hsub hvalue hname hpatched hinner,
      Context.changeInElements_replace rfl hv hs']
    cases items.any (tree.accepts a.element) with
    | false => rfl
    | true => cases items.find? fun w => tree.accepts a.element w && !w.isObject <;> rfl

/-- The primary one of two mail addresses is removed, and the other one is left. -/
theorem Request.apply_selected_primary :
    let path := Schema.emails.bracket "primary eq true"
    ∃ steps work home, twoAddresses = [work, home] ∧
      Schema.emails ∈ Schema.user.attributes ∧ Schema.emails.multiValued = true ∧
      Path.IsName Schema.emails.name.toList ∧
      userOfTwo.members.named? Schema.emails.name = some (.array twoAddresses) ∧
      Path.compile Filter.defaultMaxLength path = .ok steps ∧
      Path.resolve path Schema.user.root userOfTwo.toJson =
        .ok ⟨.array [home], Schema.emails⟩ ∧
      (ofOperations [⟨.remove, some path, .null⟩]).apply Filter.defaultMaxLength Schema.user
        userOfTwo.members = .ok [("emails", .array [work])] := by
  intro path
  have hname : Path.IsName Schema.emails.name.toList :=
    Path.isName_of_compile Schema.compile_emails
  obtain ⟨work, home, hboth⟩ : ∃ work home, twoAddresses = [work, home] := ⟨_, _, rfl⟩
  obtain ⟨tree, hcompile, haccepts⟩ : ∃ tree,
      Path.compile Filter.defaultMaxLength (Schema.emails.bracket "primary eq true") =
          .ok [.name "emails", .filter tree] ∧
        twoAddresses.map (tree.accepts Schema.emails.element) = [false, true] :=
    ⟨_, rfl, by decide +kernel⟩
  obtain ⟨tree', hread, hresolve, hremove, _⟩ :=
    Request.apply_selected (.built Schema.build_user) Schema.mem_emails rfl hname
      named?_userOfTwo hcompile hcompile
  obtain ⟨tree'', hread', hsteps⟩ := Path.exists_of_compile_bracket hname hcompile
  have hsame : tree = tree'' := by
    simp only [List.cons.injEq, Path.Step.filter.injEq, and_true] at hsteps
    exact hsteps.2
  obtain rfl : tree'' = tree' := Filter.read_unique hread' hread
  subst hsame
  rw [hboth] at haccepts hresolve hremove
  simp only [List.map_cons, List.map_nil, List.cons.injEq, and_true] at haccepts
  obtain ⟨hwork, hhome⟩ := haccepts
  have hselected : [work, home].filter (tree.accepts Schema.emails.element) = [home] := by
    simp [hwork, hhome]
  have hothers : [work, home].filter (fun w => !tree.accepts Schema.emails.element w) = [work] := by
    simp [hwork, hhome]
  rw [hselected] at hresolve
  have hremove := hremove .null
  rw [hothers] at hremove
  exact ⟨_, work, home, hboth, Schema.mem_emails, rfl, hname, named?_userOfTwo, hcompile, hresolve,
    hremove⟩

end Patch

end Scim
