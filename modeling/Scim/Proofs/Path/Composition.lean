import Scim.Proofs.Path.Steps

/-!
# Paths one behind the other

The names of a path lead where its first names lead and from there the others, if errors are not
told apart.  They do for the descriptor (`target_append`) and for the value (`descend_append`).

What stands in arrays is collected at every name, so the second half of a path meets one array where
the whole path goes on in every element.  Both collect the same, since going on from an array means
to go on from all its elements and to collect, and what a value adds to an array can be spread
before or after that (`Collects`).

The errors themselves can differ.  The whole path fails at the first element that has one, the two
halves at the first element that has one in the first half.
-/

namespace Scim.Path

/-- A way on from a value and a way on from many values collect alike. -/
structure Collects (way : Json → Except Error Json) (all : List Json → Except Error (List Json)) :
    Prop where
  null : way .null = .ok .null
  array : ∀ items, way (.array items) = (all items).map .array
  nil : all [] = .ok []
  append : ∀ items others, all (items ++ others) = (do
    let found ← all items
    let more ← all others
    .ok (found ++ more))
  spread : ∀ v, all (spread v) = (way v).map spread

variable {path path' path'' name : String} {a b : Attribute}
  {next first : Attribute → Json → Except Error Json} {way : Json → Except Error Json}
  {all : List Json → Except Error (List Json)} {accept accept' accept'' : Acceptance}

/-- Values that stay as they are collect alike. -/
theorem collects_ok : Collects .ok .ok := ⟨rfl, fun _ => rfl, rfl, fun _ _ => rfl, fun _ => rfl⟩

/-- What is collected from two lists is collected from one after the other. -/
theorem descendIntoAll_append (items others : List Json) :
    descendIntoAll path name next a (items ++ others) = (do
      let found ← descendIntoAll path name next a items
      let more ← descendIntoAll path name next a others
      .ok (found ++ more)) := by
  induction items with
  | nil =>
      rw [List.nil_append, descendIntoAll, ok_bind]
      cases descendIntoAll path name next a others <;> rfl
  | cons v rest ih =>
      rw [List.cons_append, descendIntoAll, descendIntoAll, ih]
      simp only [bind_assoc, ok_bind, List.append_assoc]

/-- A name leads on from a value and collects, or collects from what the value adds to an array. -/
theorem descendIntoAll_spread (v : Json) :
    descendIntoAll path name next a (spread v) = (descendInto path name next a v).map spread := by
  cases v with
  | null => rfl
  | array items =>
      rw [spread, descendInto]
      cases descendIntoAll path name next a items <;> rfl
  | bool | number | string => rfl
  | object members =>
      show descendIntoAll path name next a [.object members] = _
      rw [descendIntoAll, descendIntoAll]
      cases descendInto path name next a (.object members) with
      | error e => rfl
      | ok found => exact congrArg _ (List.append_nil _)

/-- A name leads on from many values as it does from one. -/
theorem collects_descendInto :
    Collects (descendInto path name next a) (descendIntoAll path name next a) where
  null := rfl
  array items := by
    rw [descendInto]
    cases descendIntoAll path name next a items <;> rfl
  nil := rfl
  append := descendIntoAll_append
  spread := descendIntoAll_spread

/-- So do names. -/
theorem collects_descend (names : List String) :
    ∃ all, Collects (descend accept path (names.map .name) a) all := by
  cases names with
  | nil => exact ⟨_, collects_ok⟩
  | cons name rest => exact ⟨_, collects_descendInto⟩

mutual

/-- A name leads to a member and on as `next` says, or to the member and as `first` says and then
on from what has been collected, if the two agree on every member. -/
theorem toOption_descendInto (hway : Collects way all)
    (h : ∀ s, a.sub? name = some s → ∀ v,
      (next s v).toOption = (first s v).toOption >>= fun w => (way w).toOption) :
    ∀ v, (descendInto path name next a v).toOption =
      (descendInto path' name first a v).toOption >>= fun w => (way w).toOption
  | .null => (congrArg Except.toOption hway.null).symm
  | .bool _ | .number _ | .string _ => rfl
  | .object members => by
      rw [descendInto, descendInto]
      cases hs : a.sub? name with
      | none => rfl
      | some s =>
          dsimp only
          cases Members.named? members s.name with
          | none => exact (congrArg Except.toOption hway.null).symm
          | some v => exact h s hs v
  | .array items => by
      have hitems := toOption_descendIntoAll hway h items
      rw [descendInto, descendInto, toOption_bind, toOption_bind, hitems]
      cases descendIntoAll path' name first a items with
      | error e => rfl
      | ok found =>
          show _ = (way (.array found)).toOption
          rw [hway.array]
          show ((all found).toOption >>= _) = _
          cases all found <;> rfl
termination_by structural v => v

theorem toOption_descendIntoAll (hway : Collects way all)
    (h : ∀ s, a.sub? name = some s → ∀ v,
      (next s v).toOption = (first s v).toOption >>= fun w => (way w).toOption) :
    ∀ items, (descendIntoAll path name next a items).toOption =
      (descendIntoAll path' name first a items).toOption >>= fun found => (all found).toOption
  | [] => (congrArg Except.toOption hway.nil).symm
  | v :: rest => by
      have hv := toOption_descendInto hway h v
      have hrest := toOption_descendIntoAll hway h rest
      simp only [descendIntoAll, toOption_bind, hv, hrest]
      cases descendInto path' name first a v with
      | error e => rfl
      | ok found =>
          cases descendIntoAll path' name first a rest with
          | error e =>
              show ((way found).toOption.bind fun _ => none) = none
              exact Option.bind_fun_none _
          | ok more =>
              show ((way found).toOption >>= fun w => (all more).toOption >>= fun ws => _) =
                (all (Path.spread found ++ more)).toOption
              rw [hway.append, hway.spread]
              cases way found with
              | error e => rfl
              | ok w => exact (toOption_bind (all more) _).symm
termination_by structural items => items

end

/-- Where names lead does not depend on the text of the path, which only errors report. -/
theorem toOption_descend (names : List String) (v : Json) :
    (descend accept path (names.map .name) a v).toOption =
      (descend accept' path' (names.map .name) a v).toOption := by
  induction names generalizing a v with
  | nil => rfl
  | cons name rest ih =>
      have hsame : (descend accept path ((name :: rest).map .name) a v).toOption =
          (descend accept' path' ((name :: rest).map .name) a v).toOption >>= some :=
        toOption_descendInto collects_ok (fun s _ u => (ih u).trans (Option.bind_fun_some _).symm) v
      exact hsame.trans (Option.bind_fun_some _)

/-- Names lead where the first of them lead and from there the others, up to the errors. -/
theorem descend_append {names more : List String}
    (h : target path' a (names.map .name) = .ok b) (v : Json) :
    (descend accept path ((names ++ more).map .name) a v).toOption =
      (descend accept' path' (names.map .name) a v).toOption >>= fun w =>
        (descend accept'' path'' (more.map .name) b w).toOption := by
  obtain ⟨all, hway⟩ : ∃ all, Collects (descend accept'' path'' (more.map .name) b) all :=
    collects_descend more
  induction names generalizing a v with
  | nil =>
      cases h
      exact toOption_descend more v
  | cons name rest ih =>
      rw [List.map_cons, target] at h
      split at h
      case h_2 => cases h
      case h_1 s hs =>
          refine toOption_descendInto hway (fun s' hs' u => ?_) v
          obtain rfl : s = s' := Option.some.inj (hs.symm.trans hs')
          exact ih h u

/-! ## The whole path -/

variable {steps : List Step} {v : Json} {d : Described}

/-- Which descriptor steps lead to does not depend on the text of the path. -/
theorem toOption_target (steps : List Step) :
    (target path a steps).toOption = (target path' a steps).toOption := by
  fun_induction target path a steps with
  | case1 => rfl
  | case2 _ _ _ ih => exact ih
  | case3 _ _ _ _ hs ih =>
      rw [target, hs]
      exact ih
  | case4 _ _ _ hs =>
      rw [target, hs]
      rfl

/-- The descriptor that steps lead to is found from where the first of them lead. -/
theorem target_append (steps others : List Step) :
    (target path a (steps ++ others)).toOption =
      (target path' a steps).toOption >>= fun b => (target path'' b others).toOption := by
  fun_induction target path' a steps with
  | case1 => exact toOption_target others
  | case2 _ _ _ ih => exact ih
  | case3 _ _ _ _ hs ih =>
      rw [List.cons_append, target, hs]
      exact ih
  | case4 _ _ _ hs =>
      rw [List.cons_append, target, hs]
      rfl

/-- Steps lead to something if they lead to its descriptor and to its value. -/
theorem follow_eq_ok_iff : follow accept path steps a v = .ok d ↔
    target path a steps = .ok d.descriptor ∧ descend accept path steps a v = .ok d.value := by
  rw [follow]
  cases target path a steps with
  | error => simp
  | ok b =>
      cases descend accept path steps a v with
      | error => simp
      | ok w =>
          obtain ⟨value, descriptor⟩ := d
          simp [and_comm]

/-- Names lead to something exactly if the first of them lead somewhere and the others lead from
there to the same value and descriptor. -/
theorem follow_append (names more : List String) (a : Attribute) (v : Json) :
    follow accept path ((names ++ more).map .name) a v = .ok d ↔
      ∃ e, follow accept' path' (names.map .name) a v = .ok e ∧
        follow accept'' path'' (more.map .name) e.descriptor e.value = .ok d := by
  have htarget : (target path a ((names ++ more).map .name)).toOption =
      (target path' a (names.map .name)).toOption >>= fun b =>
        (target path'' b (more.map .name)).toOption := by
    rw [List.map_append]
    exact target_append _ _
  constructor
  · intro h
    obtain ⟨hd, hv⟩ := follow_eq_ok_iff.mp h
    rw [hd] at htarget
    obtain ⟨b, hb, hmore⟩ := Option.bind_eq_some_iff.mp htarget.symm
    have hnames : target path' a (names.map .name) = .ok b := ok_of_toOption hb
    have hdescend : some d.value = (descend accept' path' (names.map .name) a v).toOption >>=
        fun w => (descend accept'' path'' (more.map .name) b w).toOption := by
      rw [← descend_append hnames v, hv]
      rfl
    obtain ⟨w, hw, hrest⟩ := Option.bind_eq_some_iff.mp hdescend.symm
    exact ⟨⟨w, b⟩, follow_eq_ok_iff.mpr ⟨hnames, ok_of_toOption hw⟩,
      follow_eq_ok_iff.mpr ⟨ok_of_toOption hmore, ok_of_toOption hrest⟩⟩
  · rintro ⟨e, hfirst, hrest⟩
    obtain ⟨hnames, hw⟩ := follow_eq_ok_iff.mp hfirst
    obtain ⟨hmore, hv⟩ := follow_eq_ok_iff.mp hrest
    refine follow_eq_ok_iff.mpr ⟨ok_of_toOption ?_, ok_of_toOption ?_⟩
    · rw [htarget, hnames]
      exact congrArg Except.toOption hmore
    · rw [descend_append hnames, hw]
      exact congrArg Except.toOption hv

-- In the first element the whole path fails, its first half only in the second one.
example :
    let s : Attribute := { name := "y" }
    let b : Attribute := { name := "x", type := .complex, subAttributes := [s] }
    let a : Attribute := { name := "", type := .complex, subAttributes := [b] }
    let v : Json := .array [.object [("x", .bool true)], .bool false]
    follow accept "x.y" [.name "x", .name "y"] a v = .error (.shape "x.y" "y" "boolean") ∧
      follow accept "x.y" [.name "x"] a v = .error (.shape "x.y" "x" "boolean") := ⟨rfl, rfl⟩

end Scim.Path
