import Scim.Proofs.Path.Lookup

/-!
# Paths in another case

The characters that mean something in a path are no letters, and neither is white space.  So a path
is trimmed, loses its qualifier and is cut in the same way in any case (`segmentsOf_lowered`).  If
it has no bracket, then its steps lead to the names that are the segments, and two such paths that
are alike lead to names that are alike (`compile_alike`).
-/

namespace Scim

/-! ## Texts in small letters -/

namespace Text

variable {c d : Char} {s : List Char}

theorem toLower_toLower (c : Char) : c.toLower.toLower = c.toLower := by
  have hself : ∀ d : Char, ¬ (d.val ≥ 65 ∧ d.val ≤ 90) → d.toLower = d := fun d h => dif_neg h
  refine hself _ fun hcapital => ?_
  unfold Char.toLower at hcapital
  split at hcapital
  case isTrue h =>
      obtain ⟨hlow, hhigh⟩ := h
      simp only [ge_iff_le, UInt32.le_iff_toNat_le, UInt32.toNat_add] at hlow hhigh hcapital
      simp at hlow hhigh hcapital
      omega
  case isFalse h => exact h hcapital

theorem toLower_eq_iff (hlower : d.isLower = false) (hself : d.toLower = d) :
    c.toLower = d ↔ c = d :=
  ⟨eq_of_toLower hlower, fun h => h ▸ hself⟩

theorem trim_toLower (s : List Char) : trim (s.map Char.toLower) = (trim s).map Char.toLower := by
  have hblank : isBlank ∘ Char.toLower = isBlank := funext isBlank_toLower
  rw [trim, trim, trimEnd, trimEnd, trimStart, trimStart, List.dropWhile_map, hblank,
    ← List.map_reverse, List.dropWhile_map, hblank, List.map_reverse]

end Text

namespace Path

open Scim.Filter.Scanner (Quoting)
open Text (toLower_eq_iff)

variable {s segment : List Char} {limit : Nat} {path : String}

theorem isQualified_toLower (s : List Char) :
    isQualified (s.map Char.toLower) = isQualified s := by
  have hfolded : (s.map Char.toLower).map Char.toLower = s.map Char.toLower := by
    rw [List.map_map]
    exact List.map_congr_left fun c _ => Text.toLower_toLower c
  rw [Bool.eq_iff_iff, isQualified_iff, isQualified_iff, hfolded]

theorem unqualified_toLower (s : List Char) :
    unqualified (s.map Char.toLower) = (unqualified s).map Char.toLower := by
  have hsame : ∀ d : Char, d.isLower = false → d.toLower = d →
      (· != d) ∘ Char.toLower = (· != d) := by
    intro d hlower hself
    funext c
    simp [bne, beq_eq_decide, toLower_eq_iff hlower hself]
  rw [unqualified, unqualified, isQualified_toLower]
  split
  · rw [List.takeWhile_map, List.dropWhile_map, hsame '[' rfl rfl, afterLastColon, afterLastColon,
      ← List.map_reverse, List.takeWhile_map, hsame ':' rfl rfl, List.map_append, List.map_reverse]
  · rfl

/-- Quotes and backslashes are no letters. -/
theorem after_toLower (q : Quoting) (c : Char) : q.after c.toLower = q.after c := by
  have hquote : c.toLower = '"' ↔ c = '"' := toLower_eq_iff rfl rfl
  have hslash : c.toLower = '\\' ↔ c = '\\' := toLower_eq_iff rfl rfl
  cases q <;> simp only [Quoting.after, hquote, hslash]

/-- A path is cut in the same way in small letters. -/
theorem segmentsFrom_toLower (quoting : Quoting) (bracket : Bool) (segment s : List Char) :
    segmentsFrom quoting bracket (segment.map Char.toLower) (s.map Char.toLower) =
      (segmentsFrom quoting bracket segment s).map (List.map (List.map Char.toLower)) := by
  induction s generalizing quoting bracket segment with
  | nil =>
      rw [List.map_nil, segmentsFrom, segmentsFrom]
      split
      · rfl
      split
      · rfl
      rw [← List.map_reverse, Text.trim_toLower]
      rfl
  | cons c rest ih =>
      rw [List.map_cons]
      by_cases hout : quoting = .outside
      · subst hout
        by_cases hopen : c = '['
        · subst hopen
          cases bracket with
          | true => rfl
          | false => exact ih .outside true ('[' :: segment)
        by_cases hclose : c = ']'
        · subst hclose
          cases bracket with
          | true => exact ih .outside false (']' :: segment)
          | false => rfl
        by_cases hdot : c = '.' ∧ bracket = false
        · obtain ⟨rfl, rfl⟩ := hdot
          show (segmentsFrom .outside false [] (rest.map Char.toLower) >>= fun others =>
            .ok (Text.trim (segment.map Char.toLower).reverse :: others)) = _
          rw [← List.map_reverse, Text.trim_toLower]
          have hrest := ih .outside false []
          rw [List.map_nil] at hrest
          rw [hrest]
          show _ = (segmentsFrom .outside false [] rest >>= fun others =>
            .ok (Text.trim segment.reverse :: others)).map _
          cases segmentsFrom .outside false [] rest <;> rfl
        · have hopen' : c.toLower ≠ '[' := (toLower_eq_iff rfl rfl).not.mpr hopen
          have hclose' : c.toLower ≠ ']' := (toLower_eq_iff rfl rfl).not.mpr hclose
          have hdot' : ¬ (c.toLower = '.' ∧ bracket = false) := by
            rwa [toLower_eq_iff (d := '.') rfl rfl]
          rw [segmentsFrom_plain hopen hclose hdot, segmentsFrom_plain hopen' hclose' hdot',
            after_toLower]
          exact ih (Quoting.outside.after c) bracket (c :: segment)
      · rw [segmentsFrom_quoted hout, segmentsFrom_quoted hout, after_toLower]
        exact ih (quoting.after c) bracket (c :: segment)

/-! ## Segments of a path -/

/-- The segments of what is behind the qualifier of a path, if there are any. -/
def segmentsOf (path : String) : Option (List (List Char)) :=
  let s := unqualified (Text.trim path.toList)
  if s.isEmpty then none else (segments s).toOption

theorem segmentsOf_lowered (path : String) :
    segmentsOf (Text.lowered path) = (segmentsOf path).map (List.map (List.map Char.toLower)) := by
  have hlist : (Text.lowered path).toList = path.toList.map Char.toLower := Text.toList_lowered path
  have hall := segmentsFrom_toLower .outside false [] (unqualified (Text.trim path.toList))
  rw [List.map_nil] at hall
  rw [segmentsOf, segmentsOf, hlist, Text.trim_toLower, unqualified_toLower, List.isEmpty_map]
  split
  · rfl
  · rw [segments, segments, hall]
    cases segmentsFrom .outside false [] (unqualified (Text.trim path.toList)) with
    | error => rfl
    | ok all =>
        have hempty : (all.map (List.map Char.toLower)).any List.isEmpty =
            all.any List.isEmpty := by
          rw [List.any_map]
          exact congrArg (all.any ·) (funext fun t => List.isEmpty_map)
        show Except.toOption (if (all.map (List.map Char.toLower)).any List.isEmpty = true
          then _ else _) = _
        rw [hempty]
        show _ = Option.map _ (Except.toOption (if all.any List.isEmpty = true then _ else _))
        split <;> rfl

/-- The segments of a path have its characters. -/
theorem mem_of_mem_segmentsFrom {quoting : Quoting} {bracket : Bool} {all : List (List Char)}
    (h : segmentsFrom quoting bracket segment s = .ok all) :
    ∀ t ∈ all, ∀ c ∈ t, c ∈ segment ∨ c ∈ s := by
  have hmem : ∀ {t : List Char} {c : Char}, c ∈ Text.trim t.reverse → c ∈ t :=
    fun hc => List.mem_reverse.mp ((Text.trim_sublist _).subset hc)
  fun_induction segmentsFrom quoting bracket segment s generalizing all with
  | case1 | case2 | case7 | case10 => cases h
  | case3 =>
      cases h
      intro t ht c hc
      obtain rfl := List.mem_singleton.mp ht
      exact .inl (hmem hc)
  | case11 =>
      rename_i ih
      obtain ⟨others, hothers, h⟩ := ok_of_bind h
      cases h
      refine List.forall_mem_cons.mpr ⟨fun c hc => .inl (hmem hc), fun t ht c hc => ?_⟩
      rcases ih hothers t ht c hc with hc | hc
      · cases hc
      · exact .inr (List.mem_cons_of_mem _ hc)
  | case4 | case5 | case6 | case8 | case9 | case12 =>
      rename_i ih
      intro t ht c hc
      rcases ih h t ht c hc with hc | hc
      · rcases List.mem_cons.mp hc with rfl | hc
        · exact .inr List.mem_cons_self
        · exact .inl hc
      · exact .inr (List.mem_cons_of_mem _ hc)

/-- The steps of a path without a bracket lead to the names that are its segments. -/
theorem compile_plain (h : '[' ∉ path.toList) :
    (compile limit path).toOption =
      (segmentsOf path).map (List.map fun s => .name (String.ofList s)) := by
  rw [compile, segmentsOf]
  split
  · rfl
  · cases hall : segments (unqualified (Text.trim path.toList)) with
    | error => rfl
    | ok all =>
        obtain ⟨found, hfound, hsome⟩ := ok_of_bind hall
        split at hsome
        case isTrue => cases hsome
        case isFalse =>
            cases hsome
            have hplain : ∀ n ∈ all.map String.ofList, n.toList.contains '[' = false := by
              intro n hn
              obtain ⟨t, ht, rfl⟩ := List.mem_map.mp hn
              rw [String.toList_ofList, List.contains_eq_mem]
              refine decide_eq_false fun hmem => h ?_
              have hs := (mem_of_mem_segmentsFrom hfound t ht _ hmem).resolve_left List.not_mem_nil
              exact (Text.trim_sublist _).subset ((unqualified_sublist _).subset hs)
            have hlists : (all.map String.ofList).map String.toList = all := by
              rw [List.map_map]
              exact List.map_id'' (fun t => String.toList_ofList) all
            have hsteps : stepsFrom path limit false ((all.map String.ofList).map String.toList) =
                .ok ((all.map String.ofList).map .name) := stepsFrom_names hplain
            rw [hlists, List.map_map] at hsteps
            show (stepsFrom path limit false all).toOption = _
            rw [hsteps]
            rfl

/-- Paths without brackets that are alike lead to names that are alike, or to nothing. -/
theorem compile_alike {path' : String} (halike : Text.alike path path' = true)
    (hplain : '[' ∉ path.toList) (limit limit' : Nat) :
    ((compile limit path).toOption = none ∧ (compile limit' path').toOption = none) ∨
      ∃ names names' : List String, compile limit path = .ok (names.map .name) ∧
        compile limit' path' = .ok (names'.map .name) ∧
        names.map Text.folded = names'.map Text.folded := by
  have hfolded := Text.alike_iff.mp halike
  have hplain' : '[' ∉ path'.toList := by
    intro hmem
    have hlower : '[' ∈ Text.folded path := by
      rw [hfolded]
      exact List.mem_map_of_mem (f := Char.toLower) hmem
    obtain ⟨c, hc, hbracket⟩ := List.mem_map.mp hlower
    exact hplain (Text.eq_of_toLower rfl hbracket ▸ hc)
  have hlowered : Text.lowered path = Text.lowered path' := congrArg String.ofList hfolded
  have hsame := (segmentsOf_lowered path).symm.trans
    ((congrArg segmentsOf hlowered).trans (segmentsOf_lowered path'))
  have hcompile : (compile limit path).toOption = (segmentsOf path).map _ := compile_plain hplain
  have hcompile' : (compile limit' path').toOption = (segmentsOf path').map _ :=
    compile_plain hplain'
  cases hall : segmentsOf path with
  | none =>
      rw [hall, Option.map_none] at hsame hcompile
      rw [Option.map_eq_none_iff.mp hsame.symm, Option.map_none] at hcompile'
      exact .inl ⟨hcompile, hcompile'⟩
  | some all =>
      rw [hall, Option.map_some] at hsame hcompile
      obtain ⟨all', hall', hsegments⟩ := Option.map_eq_some_iff.mp hsame.symm
      rw [hall', Option.map_some] at hcompile'
      refine .inr ⟨all.map String.ofList, all'.map String.ofList, ?_, ?_, ?_⟩
      · rw [List.map_map]
        exact ok_of_toOption hcompile
      · rw [List.map_map]
        exact ok_of_toOption hcompile'
      · have hnames : ∀ found : List (List Char), (found.map String.ofList).map Text.folded =
            found.map (List.map Char.toLower) := by
          intro found
          rw [List.map_map]
          exact List.map_congr_left fun t _ => by simp [Text.folded]
        rw [hnames, hnames, hsegments]

end Path

end Scim
