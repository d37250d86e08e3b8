import Scim.Path.Descent
import Scim.Proofs.Outcome

/-!
# Compiled paths

What compiling a path can give, and where its steps lead in an object.  A path that compiles has at
least one step, since the text has a last segment and every segment has a step to a name.
-/

namespace Scim.Path

variable {path : String} {limit : Nat} {steps : List Step}

/-- The rest of a path has a last segment. -/
theorem segmentsFrom_ne_nil {quoting : Filter.Scanner.Quoting} {bracket : Bool}
    {segment s : List Char} {all : List (List Char)}
    (h : segmentsFrom quoting bracket segment s = .ok all) : all ≠ [] := by
  fun_induction segmentsFrom quoting bracket segment s with
  | case1 | case2 | case7 | case10 => cases h
  | case3 =>
      cases h
      exact List.cons_ne_nil _ _
  | case11 =>
      obtain ⟨others, _, h⟩ := ok_of_bind h
      cases h
      exact List.cons_ne_nil _ _
  | case4 _ _ _ _ ih | case5 _ _ _ _ _ ih | case6 _ _ _ ih | case8 _ _ _ _ _ ih => exact ih h
  | case9 _ _ _ _ ih | case12 _ _ _ _ _ _ _ _ ih => exact ih h

/-- A segment with a bracket has two steps. -/
theorem filteredSteps_eq {segment : List Char} (h : filteredSteps path limit segment = .ok steps) :
    ∃ name tree, steps = [.name name, .filter tree] := by
  unfold filteredSteps at h
  dsimp only at h
  split at h
  · cases h
  · split at h
    · cases h
    · split at h
      · cases h
      · cases h
        exact ⟨_, _, rfl⟩

/-- Every segment has a step to a name. -/
theorem stepsFrom_ne_nil {used : Bool} {segments : List (List Char)} (hsegments : segments ≠ [])
    (h : stepsFrom path limit used segments = .ok steps) : steps ≠ [] := by
  fun_induction stepsFrom path limit used segments generalizing steps with
  | case1 => exact absurd rfl hsegments
  | case2 => cases h
  | case3 =>
      obtain ⟨front, hfront, h⟩ := ok_of_bind h
      obtain ⟨back, _, h⟩ := ok_of_bind h
      obtain ⟨name, tree, rfl⟩ := filteredSteps_eq hfront
      cases h
      exact List.cons_ne_nil _ _
  | case4 =>
      obtain ⟨back, _, h⟩ := ok_of_bind h
      cases h
      exact List.cons_ne_nil _ _

/-- The steps of a path that compiles come from the segments of what is behind its qualifier. -/
theorem segments_of_compile (h : compile limit path = .ok steps) :
    unqualified (Text.trim path.toList) ≠ [] ∧
      ∃ all, segmentsFrom .outside false [] (unqualified (Text.trim path.toList)) = .ok all ∧
        stepsFrom path limit false all = .ok steps := by
  unfold compile at h
  dsimp only at h
  split at h
  case isTrue => cases h
  case isFalse hempty =>
      refine ⟨fun hnil => hempty (List.isEmpty_iff.mpr hnil), ?_⟩
      split at h
      case h_1 => cases h
      case h_2 all hall =>
          obtain ⟨found, hfound, hall⟩ := ok_of_bind hall
          split at hall
          case isTrue => cases hall
          case isFalse =>
              cases hall
              exact ⟨all, hfound, h⟩

/-- A path that compiles has a step. -/
theorem compile_ne_nil (h : compile limit path = .ok steps) : steps ≠ [] := by
  obtain ⟨_, all, hall, hsteps⟩ := segments_of_compile h
  exact stepsFrom_ne_nil (segmentsFrom_ne_nil hall) hsteps

/-- Steps to names only come from segments without brackets, so the limit of filters is free. -/
theorem stepsFrom_of_names {names : List String} {used : Bool} {segments : List (List Char)}
    (limit' : Nat) (h : stepsFrom path limit used segments = .ok (names.map .name)) :
    stepsFrom path limit' used segments = .ok (names.map .name) := by
  induction segments generalizing names with
  | nil => exact h
  | cons segment rest ih =>
      rw [stepsFrom] at h ⊢
      split at h
      case isTrue =>
          split at h
          case isTrue => cases h
          case isFalse =>
              obtain ⟨front, hfront, h⟩ := ok_of_bind h
              obtain ⟨back, _, h⟩ := ok_of_bind h
              obtain ⟨name, tree, rfl⟩ := filteredSteps_eq hfront
              have hmem : Step.filter tree ∈ names.map Step.name := by
                rw [← Except.ok.inj h]
                simp
              obtain ⟨_, _, hname⟩ := List.mem_map.mp hmem
              cases hname
      case isFalse hplain =>
          rw [if_neg hplain]
          obtain ⟨back, hback, h⟩ := ok_of_bind h
          cases names with
          | nil => cases h
          | cons name names =>
              obtain ⟨hname, rfl⟩ := List.cons.inj (Except.ok.inj h)
              rw [ih hback, hname]
              rfl

/-- A path of names is the same path under every limit of filters. -/
theorem compile_of_names {names : List String} (limit' : Nat)
    (h : compile limit path = .ok (names.map .name)) :
    compile limit' path = .ok (names.map .name) := by
  unfold compile at h ⊢
  dsimp only at h ⊢
  split at h
  case isTrue => cases h
  case isFalse hempty =>
      rw [if_neg hempty]
      split at h
      case h_1 => cases h
      case h_2 => exact stepsFrom_of_names limit' h

/-! ## Where steps lead -/

variable {accept : Acceptance} {a s : Attribute} {name : String} {members : Members}

/-- Below `null` there is `null`. -/
theorem descend_null (steps : List Step) : descend accept path steps a .null = .ok .null := by
  cases steps with
  | nil => rfl
  | cons step rest => cases step <;> rfl

/-- A name leads on to the value under it. -/
theorem descendInto_object (hs : a.sub? name = some s) (rest : List Step) :
    descendInto path name (descend accept path rest) a (.object members) =
      descend accept path rest s (members.valueOf s.name) := by
  rw [descendInto, hs, Members.valueOf]
  dsimp only
  cases members.named? s.name with
  | none => exact (descend_null rest).symm
  | some v => rfl

theorem target_cons (hs : a.sub? name = some s) (rest : List Step) :
    target path a (.name name :: rest) = target path s rest := by
  rw [target, hs]

/-- A name that no sub-attribute has leads nowhere. -/
theorem follow_missing (hs : a.sub? name = none) (rest : List Step) (v : Json) :
    follow accept path (.name name :: rest) a v = .error (.missing path name) := by
  rw [follow, target, hs]
  rfl

theorem follow_object (hs : a.sub? name = some s) (rest : List Step) :
    follow accept path (.name name :: rest) a (.object members) =
      follow accept path rest s (members.valueOf s.name) := by
  rw [follow, target_cons hs, descend, descendInto_object hs]
  rfl

theorem follow_null (hs : a.sub? name = some s) (rest : List Step) :
    follow accept path (.name name :: rest) a .null = follow accept path rest s .null := by
  rw [follow, target_cons hs, descend_null, follow, descend_null]

/-- A filter behind a name keeps the elements that it accepts. -/
theorem follow_filter {items : List Json} {tree : Filter.Tree} (hs : a.sub? name = some s)
    (hmulti : s.multiValued = true) (hitems : members.valueOf s.name = .array items) :
    follow accept path [.name name, .filter tree] a (.object members) =
      .ok ⟨.array (items.filter (accept tree s.element)), s⟩ := by
  rw [follow_object hs, hitems, follow, target, descend, if_pos hmulti]
  rfl

end Scim.Path
