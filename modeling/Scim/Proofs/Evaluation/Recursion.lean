import Scim.Evaluation.Acceptance
import Scim.Proofs.Evaluation.Collected
import Scim.Proofs.Filter.Extent
import Scim.Proofs.Path.Brackets

/-!
# The recursion of evaluation

Whether a filter accepts a value depends on where its paths lead, and where a path leads depends on
what the filter in it accepts.  `Call` has the functions that call each other so, `Call.calls` the
calls that one of them can make, and `body` what it makes of the answers.

No chain of calls goes on for ever (`acc_accept`).  A filter in a path is read from a text that is
shorter than the path, no path of a tree is longer than the text of the tree, and between two
filters the calls go down the steps and into the elements of arrays.

`Filter.Tree.accepts` counts levels to end in any case.  It never runs out of them
(`Filter.Tree.acceptsWithin_eq`), so it answers what the functions that call each other without
counting answer (`answer_eq_body`), and nothing else does (`eq_answer_iff`).
-/

namespace Scim

open Scim.Path (Acceptance Step compile descend descendInto descendIntoAll spread target)
open Scim.Filter (Token Tree defaultMaxLength)

/-! ## Paths of a tree -/

namespace Filter.Tree

variable {tree : Tree} {n : Nat} {path : String}

/-- The paths in the tree. -/
def paths : Tree → List String
  | nil => []
  | node t l r => (if t.kind = .path then [t.text] else []) ++ (l.paths ++ r.paths)

@[simp] theorem paths_nil : (nil : Tree).paths = [] := rfl

@[simp] theorem paths_node (t : Token) (l r : Tree) :
    (node t l r).paths = (if t.kind = .path then [t.text] else []) ++ (l.paths ++ r.paths) := rfl

theorem forall_paths_iff {p : String → Prop} :
    (∀ path ∈ tree.paths, p path) ↔ tree.Forall fun t => t.kind = .path → p t.text := by
  induction tree with
  | nil => simp [Forall]
  | node t l r ihl ihr =>
      rw [paths_node, Forall, List.forall_mem_append, List.forall_mem_append, ihl, ihr]
      split
      case isTrue hkind => simp [hkind]
      case isFalse hkind => simp [hkind]

/-- The truth of a tree depends on what its paths mean. -/
theorem eval_eq_of_paths {meaning meaning' : Meaning}
    (h : ∀ path ∈ tree.paths, meaning path = meaning' path) :
    tree.eval meaning = tree.eval meaning' := eval_congr (forall_paths_iff.mp h)

theorem longestPath_le_iff :
    tree.longestPath ≤ n ↔ ∀ path ∈ tree.paths, path.utf8ByteSize ≤ n := by
  induction tree with
  | nil => simp [longestPath]
  | node t l r ihl ihr =>
      rw [paths_node, longestPath, List.forall_mem_append, List.forall_mem_append, Nat.max_le,
        Nat.max_le, ihl, ihr]
      split
      case isTrue => simp
      case isFalse => simp

theorem le_longestPath (h : path ∈ tree.paths) : path.utf8ByteSize ≤ tree.longestPath :=
  longestPath_le_iff.mp (Nat.le_refl _) path h

/-- No path of a tree is longer than the text that is read as the tree. -/
theorem longestPath_of_read {limit : Nat} {text : String} (h : read limit text = .ok tree) :
    tree.longestPath ≤ text.utf8ByteSize :=
  longestPath_le_iff.mpr (forall_paths_iff.mpr (textSize_of_read h))

end Filter.Tree

/-- The paths in a filter step are shorter than the path that compiles to it. -/
theorem Path.longestPath_of_compile {limit : Nat} {path : String} {steps : List Step} {tree : Tree}
    (h : compile limit path = .ok steps) (hmem : .filter tree ∈ steps) :
    tree.longestPath < path.utf8ByteSize := by
  obtain ⟨text, hsize, hread⟩ := read_of_compile h hmem
  exact Nat.lt_of_le_of_lt (Filter.Tree.longestPath_of_read hread) hsize

/-! ## Enough levels -/

section

variable {accept accept' : Acceptance} {path : String} {steps : List Step} {tree : Tree}
  {levels levels' : Nat} {a : Attribute} {v : Json}

/-- Where steps lead depends on what their filters accept. -/
theorem Path.descend_congr
    (h : ∀ tree, .filter tree ∈ steps → accept tree = accept' tree) :
    descend accept path steps = descend accept' path steps := by
  induction steps with
  | nil => rfl
  | cons step rest ih =>
      have hrest := ih fun tree htree => h tree (List.mem_cons_of_mem _ htree)
      funext a v
      cases step with
      | name name => rw [descend, descend, hrest]
      | filter tree => simp only [descend, hrest, h tree List.mem_cons_self]

namespace Filter.Tree

/-- Where a path leads depends on what the filters with shorter paths accept. -/
theorem resolveBy_congr
    (h : ∀ tree : Tree, tree.longestPath < path.utf8ByteSize → accept tree = accept' tree) :
    resolveBy accept path a v = resolveBy accept' path a v := by
  unfold resolveBy
  cases hsteps : compile defaultMaxLength path with
  | error => rfl
  | ok steps =>
      have hfilters : ∀ tree, .filter tree ∈ steps → accept tree = accept' tree :=
        fun tree htree => h tree (Path.longestPath_of_compile hsteps htree)
      rw [ok_bind, ok_bind, Path.follow, Path.follow, Path.descend_congr hfilters]

/-- With more levels than the longest path has bytes, the number of levels does not matter. -/
theorem acceptsWithin_eq (h : tree.longestPath < levels) (h' : tree.longestPath < levels') :
    acceptsWithin levels tree = acceptsWithin levels' tree := by
  induction levels generalizing levels' tree with
  | zero => exact absurd h (Nat.not_lt_zero _)
  | succ n ih =>
      obtain ⟨m, rfl⟩ := Nat.exists_eq_succ_of_ne_zero (Nat.ne_zero_of_lt h')
      funext a v
      rw [acceptsWithin, acceptsWithin]
      refine eval_eq_of_paths fun path hpath => congrArg Except.toOption ?_
      have hle := le_longestPath hpath
      exact resolveBy_congr fun inner hinner => ih (by omega) (by omega)

/-- Acceptance and resolution call each other. -/
theorem accepts_eq :
    tree.accepts a v = tree.eval fun path => (Path.resolve path a v).toOption := by
  rw [accepts, acceptsWithin]
  refine eval_eq_of_paths fun path hpath => congrArg Except.toOption ?_
  have hle := le_longestPath hpath
  refine resolveBy_congr fun inner hinner => ?_
  exact acceptsWithin_eq (Nat.lt_of_lt_of_le hinner hle) (Nat.lt_succ_self _)

end Filter.Tree

end

/-! ## Calls -/

namespace Evaluation

/-- A call of one of the functions that evaluate a filter. -/
inductive Call where
  /-- Whether a filter accepts a value. -/
  | accept (tree : Tree) (a : Attribute) (v : Json)
  /-- What a path leads to below a value. -/
  | resolve (path : String) (a : Attribute) (v : Json)
  /-- The value that the steps of a path lead to. -/
  | descend (path : String) (steps : List Step) (a : Attribute) (v : Json)

/-- What a call gives. -/
abbrev Call.Answer : Call → Type
  | accept .. => Bool
  | resolve .. => Except Path.Error Described
  | descend .. => Except Path.Error Json

/-- An answer to every call. -/
abbrev Answers := (c : Call) → c.Answer

/-- What the library answers. -/
def answer : Answers
  | .accept tree a v => tree.accepts a v
  | .resolve path a v => Path.resolve path a v
  | .descend path steps a v => Path.descend Tree.accepts path steps a v

/-- The calls that a call can make. -/
def Call.calls : Call → List Call
  | accept tree a v => tree.paths.map fun path => resolve path a v
  | resolve path a v =>
      match compile defaultMaxLength path with
      | .ok steps => [descend path steps a v]
      | .error _ => []
  | descend path (.name name :: rest) a (.object members) =>
      match a.sub? name with
      | some s => (Members.named? members s.name).toList.map fun child => descend path rest s child
      | none => []
  | descend path (.name name :: rest) a (.array items) =>
      items.map fun item => descend path (.name name :: rest) a item
  | descend path (.filter tree :: rest) a (.array items) =>
      descend path rest a (.array (items.filter (tree.accepts a.element))) ::
        items.map fun item => accept tree a.element item
  | descend .. => []

/-- What the function of a call makes of the answers to its own calls. -/
def body (answers : Answers) : Answers
  | .accept tree a v => tree.eval fun path => (answers (.resolve path a v)).toOption
  | .resolve path a v => do
      let steps ← compile defaultMaxLength path
      let descriptor ← target path a steps
      let value ← answers (.descend path steps a v)
      .ok ⟨value, descriptor⟩
  | .descend _ [] _ v => .ok v
  | .descend _ (_ :: _) _ .null => .ok .null
  | .descend path (.name name :: rest) a (.object members) =>
      match a.sub? name with
      | some s =>
          match Members.named? members s.name with
          | some child => answers (.descend path rest s child)
          | none => .ok .null
      | none => .error (.missing path name)
  | .descend path (.name name :: rest) a (.array items) => do
      let found ← items.mapM fun item => answers (.descend path (.name name :: rest) a item)
      .ok (.array (found.flatMap spread))
  | .descend path (.name name :: _) _ v => .error (.shape path name v.kindName)
  | .descend path (.filter tree :: rest) a (.array items) =>
      if a.multiValued then
        answers (.descend path rest a
          (.array (items.filter fun item => answers (.accept tree a.element item))))
      else .error (.filterOnSingleValue path)
  | .descend path (.filter _ :: _) _ _ => .error (.filterOnSingleValue path)

/-! ## The calls end -/

/-- One call is made by another. -/
def Call.IsMadeBy (callee caller : Call) : Prop := callee ∈ caller.calls

section

variable {path name : String} {steps rest : List Step} {tree : Tree} {a : Attribute} {v : Json}
  {members : Members} {c : Call}

theorem mem_calls_resolve : c ∈ (Call.resolve path a v).calls ↔
    ∃ steps, compile defaultMaxLength path = .ok steps ∧ c = .descend path steps a v := by
  rw [Call.calls]
  cases compile defaultMaxLength path with
  | error => simp
  | ok steps => simp

theorem mem_calls_object :
    c ∈ (Call.descend path (.name name :: rest) a (.object members)).calls ↔
      ∃ s child, a.sub? name = some s ∧ Members.named? members s.name = some child ∧
        c = .descend path rest s child := by
  rw [Call.calls]
  cases a.sub? name with
  | none => simp
  | some s => simp [eq_comm]

mutual

/-- A step to a name ends if the steps behind it do. -/
theorem acc_name (h : ∀ s w, Acc Call.IsMadeBy (.descend path rest s w)) :
    ∀ v, Acc Call.IsMadeBy (.descend path (.name name :: rest) a v)
  | .null | .bool _ | .number _ | .string _ => ⟨_, nofun⟩
  | .object members => by
      refine ⟨_, fun c hc => ?_⟩
      obtain ⟨s, child, _, _, rfl⟩ := mem_calls_object.mp hc
      exact h s child
  | .array items => by
      refine ⟨_, fun c hc => ?_⟩
      obtain ⟨item, hitem, rfl⟩ := List.mem_map.mp hc
      exact acc_names h items item hitem
termination_by structural v => v

theorem acc_names (h : ∀ s w, Acc Call.IsMadeBy (.descend path rest s w)) :
    ∀ items : List Json, ∀ v ∈ items,
      Acc Call.IsMadeBy (.descend path (.name name :: rest) a v)
  | [], _, hv => absurd hv List.not_mem_nil
  | first :: others, v, hv => by
      rcases List.mem_cons.mp hv with hv | hv
      · rw [hv]
        exact acc_name h first
      · exact acc_names h others v hv
termination_by structural items => items

end

/-- Steps end if their filters do. -/
theorem acc_descend
    (h : ∀ tree, .filter tree ∈ steps → ∀ a v, Acc Call.IsMadeBy (.accept tree a v)) :
    Acc Call.IsMadeBy (.descend path steps a v) := by
  induction steps generalizing a v with
  | nil => exact ⟨_, nofun⟩
  | cons step rest ih =>
      have hrest : ∀ s w, Acc Call.IsMadeBy (.descend path rest s w) :=
        fun s w => ih fun tree htree => h tree (List.mem_cons_of_mem _ htree)
      cases step with
      | name name => exact acc_name hrest v
      | filter tree =>
          refine ⟨_, fun c hc => ?_⟩
          cases v with
          | array items =>
              rcases List.mem_cons.mp hc with rfl | hc
              · exact hrest _ _
              · obtain ⟨item, _, rfl⟩ := List.mem_map.mp hc
                exact h tree List.mem_cons_self _ _
          | null | bool | number | string | object => cases hc

/-- A path ends if all filters with shorter paths do. -/
theorem acc_resolve (h : ∀ tree : Tree, tree.longestPath < path.utf8ByteSize →
    ∀ a v, Acc Call.IsMadeBy (.accept tree a v)) : Acc Call.IsMadeBy (.resolve path a v) := by
  refine ⟨_, fun c hc => ?_⟩
  obtain ⟨steps, hsteps, rfl⟩ := mem_calls_resolve.mp hc
  exact acc_descend fun tree htree => h tree (Path.longestPath_of_compile hsteps htree)

/-- Every filter ends. -/
theorem acc_accept (tree : Tree) (a : Attribute) (v : Json) :
    Acc Call.IsMadeBy (.accept tree a v) := by
  -- The longest path bounds the paths of the tree, and each of them those of the filter in it.
  induction hlongest : tree.longestPath using Nat.strong_induction_on generalizing tree a v with
  | h n ih =>
      refine ⟨_, fun c hc => ?_⟩
      obtain ⟨path, hpath, rfl⟩ := List.mem_map.mp hc
      have hle : path.utf8ByteSize ≤ n := hlongest ▸ Filter.Tree.le_longestPath hpath
      exact acc_resolve fun inner hinner a v =>
        ih inner.longestPath (Nat.lt_of_lt_of_le hinner hle) inner a v rfl

/-- No chain of calls goes on for ever. -/
theorem wellFounded_isMadeBy : WellFounded Call.IsMadeBy := by
  refine ⟨fun c => ?_⟩
  cases c with
  | accept tree a v => exact acc_accept tree a v
  | resolve => exact acc_resolve fun tree _ => acc_accept tree
  | descend => exact acc_descend fun tree _ => acc_accept tree

end

/-! ## The answers of the calls -/

section

variable {path name : String} {a : Attribute} {next : Attribute → Json → Except Path.Error Json}
  {answers : Answers} {c : Call} {rest : List Step} {tree : Tree} {members : Members}
  {items : List Json} {v : Json}

theorem body_resolve : body answers (.resolve path a v) = (do
    let steps ← compile defaultMaxLength path
    let descriptor ← target path a steps
    let value ← answers (.descend path steps a v)
    .ok ⟨value, descriptor⟩) := rfl

theorem body_object : body answers (.descend path (.name name :: rest) a (.object members)) =
    match a.sub? name with
    | some s =>
        match Members.named? members s.name with
        | some child => answers (.descend path rest s child)
        | none => .ok .null
    | none => .error (.missing path name) := rfl

theorem body_array : body answers (.descend path (.name name :: rest) a (.array items)) = (do
    let found ← items.mapM fun item => answers (.descend path (.name name :: rest) a item)
    .ok (.array (found.flatMap spread))) := rfl

theorem body_filter : body answers (.descend path (.filter tree :: rest) a (.array items)) =
    if a.multiValued then
      answers (.descend path rest a
        (.array (items.filter fun item => answers (.accept tree a.element item))))
    else .error (.filterOnSingleValue path) := rfl

/-- Stepping into many values is stepping into each of them. -/
theorem descendIntoAll_eq_mapM (items : List Json) :
    descendIntoAll path name next a items = (do
      let found ← items.mapM (descendInto path name next a)
      .ok (found.flatMap spread)) := by
  induction items with
  | nil => rfl
  | cons v rest ih =>
      rw [descendIntoAll, ih, List.mapM_cons]
      simp only [bind_assoc, ok_bind]
      rfl

/-- The library answers what the functions that call each other make of its answers. -/
theorem answer_eq_body (c : Call) : answer c = body answer c := by
  cases c with
  | accept => exact Filter.Tree.accepts_eq
  | resolve => rfl
  | descend path steps a v =>
      cases steps with
      | nil => rfl
      | cons step rest =>
          cases step with
          | name name =>
              cases v with
              | array items =>
                  rw [answer, descend, descendInto, descendIntoAll_eq_mapM, bind_assoc]
                  rfl
              | object members =>
                  rw [answer, descend, descendInto]
                  rfl
              | null | bool | number | string => rfl
          | filter tree => cases v <;> rfl

/-- A step to a name needs no answers but those of its calls. -/
theorem body_congr_name
    (h : ∀ callee ∈ (Call.descend path (.name name :: rest) a v).calls,
      answers callee = answer callee) :
    body answers (.descend path (.name name :: rest) a v) =
      body answer (.descend path (.name name :: rest) a v) := by
  cases v with
  | object members =>
      rw [body_object, body_object]
      cases hsub : a.sub? name with
      | none => rfl
      | some s =>
          dsimp only
          cases hchild : Members.named? members s.name with
          | none => rfl
          | some child => exact h _ (mem_calls_object.mpr ⟨s, child, hsub, hchild, rfl⟩)
  | array items =>
      have hitems : ∀ item ∈ items,
          answers (.descend path (.name name :: rest) a item) =
            answer (.descend path (.name name :: rest) a item) :=
        fun item hitem => h _ (List.mem_map_of_mem hitem)
      rw [body_array, body_array, mapM_congr hitems]
  | null | bool | number | string => rfl

/-- A step to the elements that a filter accepts needs no answers but those of its calls. -/
theorem body_congr_filter
    (h : ∀ callee ∈ (Call.descend path (.filter tree :: rest) a v).calls,
      answers callee = answer callee) :
    body answers (.descend path (.filter tree :: rest) a v) =
      body answer (.descend path (.filter tree :: rest) a v) := by
  cases v with
  | array items =>
      have hitems : ∀ item ∈ items, answers (.accept tree a.element item) =
          answer (.accept tree a.element item) :=
        fun item hitem => h _ (List.mem_cons_of_mem _ (List.mem_map_of_mem hitem))
      rw [body_filter, body_filter, List.filter_congr hitems]
      have hrest := h _ List.mem_cons_self
      exact congrArg (fun found => if a.multiValued then found else _) hrest
  | null | bool | number | string | object => rfl

/-- A call needs no answers but those of its own calls. -/
theorem body_eq_answer (h : ∀ callee ∈ c.calls, answers callee = answer callee) :
    body answers c = answer c := by
  rw [answer_eq_body]
  cases c with
  | accept tree a v =>
      exact Filter.Tree.eval_eq_of_paths fun path hpath =>
        congrArg Except.toOption (h (.resolve path a v) (List.mem_map_of_mem hpath))
  | resolve path a v =>
      rw [body_resolve, body_resolve]
      cases hsteps : compile defaultMaxLength path with
      | error => rfl
      | ok steps =>
          rw [ok_bind, ok_bind, h _ (mem_calls_resolve.mpr ⟨steps, hsteps, rfl⟩)]
  | descend path steps a v =>
      cases steps with
      | nil => rfl
      | cons step rest =>
          cases step with
          | name => exact body_congr_name h
          | filter => exact body_congr_filter h

/-- Only the library's answers are what the functions make of them. -/
theorem eq_answer_iff : (∀ c, answers c = body answers c) ↔ answers = answer := by
  constructor
  · intro h
    funext c
    induction c using wellFounded_isMadeBy.induction with
    | _ c ih => rw [h c, body_eq_answer ih]
  · rintro rfl
    exact answer_eq_body

/-- Evaluation ends although it reads filters.  The filter in a path is read from a shorter text, no
path of a tree is longer than the text of the tree, no chain of calls goes on for ever, and a call
is answered from the answers to its own calls. -/
theorem evaluation_ends :
    (∀ (limit : Nat) (path : String) (steps : List Step) (tree : Tree),
      compile limit path = .ok steps → .filter tree ∈ steps →
        ∃ text : String, text.utf8ByteSize < path.utf8ByteSize ∧
          Filter.read limit text = .ok tree) ∧
      (∀ (limit : Nat) (text : String) (tree : Tree), Filter.read limit text = .ok tree →
        ∀ path ∈ tree.paths, path.utf8ByteSize ≤ text.utf8ByteSize) ∧
      WellFounded Call.IsMadeBy ∧
      ∀ (answers : Answers) (c : Call),
        (∀ callee : Call, callee.IsMadeBy c → answers callee = answer callee) →
          body answers c = answer c := by
  refine ⟨fun _ _ _ _ => Path.read_of_compile, fun _ _ tree hread => ?_, wellFounded_isMadeBy,
    fun _ _ => body_eq_answer⟩
  exact Filter.Tree.longestPath_le_iff.mp (Filter.Tree.longestPath_of_read hread)

/-- For the reader of the filter the bracket stands between quotes and is a part of the path.  For
the reader of the path it does not, since the first quote goes away with the qualifier. -/
theorem evaluation_ends_requoted :
    ∃ (tree inner : Tree) (steps : List Step) (text : String),
      Filter.read defaultMaxLength "urn:\":emails[type pr].x\\\"y\" pr" = .ok tree ∧
      "urn:\":emails[type pr].x\\\"y\"" ∈ tree.paths ∧
      compile defaultMaxLength "urn:\":emails[type pr].x\\\"y\"" = .ok steps ∧
      .filter inner ∈ steps ∧ Filter.read defaultMaxLength text = .ok inner ∧
      text.utf8ByteSize < 27 ∧ (∀ path ∈ tree.paths, path.utf8ByteSize ≤ 30) ∧
      ∀ a v, Acc Call.IsMadeBy (.accept tree a v) ∧
        body answer (.accept tree a v) = tree.accepts a v := by
  obtain ⟨hshorter, hlongest, hends, hanswers⟩ := evaluation_ends
  have hread : ∃ tree, Filter.read defaultMaxLength
      "urn:\":emails[type pr].x\\\"y\" pr" = .ok tree ∧
      "urn:\":emails[type pr].x\\\"y\"" ∈ tree.paths := ⟨_, rfl, List.mem_cons_self⟩
  have hcompile : ∃ name inner rest, compile defaultMaxLength
      "urn:\":emails[type pr].x\\\"y\"" = .ok (.name name :: .filter inner :: rest) :=
    ⟨_, _, _, rfl⟩
  obtain ⟨tree, hread, hmem⟩ := hread
  obtain ⟨name, inner, rest, hcompile⟩ := hcompile
  have hinner : Step.filter inner ∈ .name name :: .filter inner :: rest :=
    List.mem_cons_of_mem _ List.mem_cons_self
  obtain ⟨text, hsize, htext⟩ := hshorter _ _ _ _ hcompile hinner
  exact ⟨tree, inner, _, text, hread, hmem, hcompile, hinner, htext, hsize,
    hlongest _ _ _ hread, fun a v => ⟨hends.apply _, hanswers answer _ fun _ _ => rfl⟩⟩

end

end Evaluation

end Scim
