import Scim.Proofs.Path.Names

/-!
# Paths with brackets

A path that consists of a name and something in brackets, and that compiles, is the path of the
name and one filter, whatever stands in the brackets (`exists_of_compile_bracket`).  If the text
were cut somewhere, then the bracket behind the name would be in the first segment and the one that
is closed at the end in the last, and a path has only one filter.

A name behind such a path is one step more (`compile_below_bracket`).

Any path that compiles to a filter step is longer than the text that the filter is read from
(`read_of_compile`).  Dropping the qualifier can change which quotes are open behind it, but what
stands in the bracket remains a part of the path.
-/

namespace Scim

namespace Text

variable {s : List Char} {c : Char}

theorem mem_trimStart (h : c ∈ s) (hc : isBlank c = false) : c ∈ trimStart s := by
  rw [← List.takeWhile_append_dropWhile (p := isBlank) (l := s)] at h
  rcases List.mem_append.mp h with h | h
  · rw [List.mem_takeWhile_imp h] at hc
    cases hc
  · exact h

/-- A character that is no white space is not trimmed away. -/
theorem mem_trim (h : c ∈ s) (hc : isBlank c = false) : c ∈ trim s := by
  have hreverse : c ∈ (trimStart s).reverse := List.mem_reverse.mpr (mem_trimStart h hc)
  exact List.mem_reverse.mpr (mem_trimStart hreverse hc)

end Text

namespace Path

open Scim.Filter (Tree)
open Scim.Filter.Scanner (Quoting)

variable {segment s : List Char} {all : List (List Char)} {quoting : Quoting} {bracket : Bool}
  {limit : Nat} {path : String} {steps : List Step}

/-! ## Segments with brackets -/

/-- What the current segment holds is in the first of the segments. -/
theorem exists_first_of_segmentsFrom (h : segmentsFrom quoting bracket segment s = .ok all)
    (hopen : '[' ∈ segment) : ∃ first rest, all = first :: rest ∧ '[' ∈ first := by
  have htrim : ∀ {t : List Char}, '[' ∈ t → '[' ∈ Text.trim t.reverse :=
    fun ht => Text.mem_trim (List.mem_reverse.mpr ht) (by decide)
  fun_induction segmentsFrom quoting bracket segment s generalizing all with
  | case1 | case2 | case7 | case10 => cases h
  | case3 =>
      cases h
      exact ⟨_, [], rfl, htrim hopen⟩
  | case11 =>
      obtain ⟨others, _, h⟩ := ok_of_bind h
      cases h
      exact ⟨_, others, rfl, htrim hopen⟩
  | case4 | case5 | case6 | case8 | case9 | case12 =>
      rename_i ih
      exact ih h (List.mem_cons_of_mem _ hopen)

/-- A bracket that is closed at the end of the text was opened in the last of the segments. -/
theorem exists_last_of_segmentsFrom
    (h : segmentsFrom quoting bracket segment (s ++ [']']) = .ok all)
    (hopen : bracket = true → '[' ∈ segment) : ∃ last, all.getLast? = some last ∧ '[' ∈ last := by
  induction s generalizing quoting bracket segment all with
  | nil =>
      cases quoting with
      | inside | escaped => cases h
      | outside =>
          cases bracket with
          | false => cases h
          | true =>
              cases h
              have hmem : '[' ∈ (']' :: segment).reverse :=
                List.mem_reverse.mpr (List.mem_cons_of_mem _ (hopen rfl))
              exact ⟨_, rfl, Text.mem_trim hmem (by decide)⟩
  | cons c rest ih =>
      have hkept : bracket = true → '[' ∈ c :: segment :=
        fun hbracket => List.mem_cons_of_mem _ (hopen hbracket)
      rw [List.cons_append] at h
      by_cases hout : quoting = .outside
      · subst hout
        by_cases hbegin : c = '['
        · subst hbegin
          cases bracket with
          | true => cases h
          | false => exact ih h fun _ => List.mem_cons_self
        by_cases hclose : c = ']'
        · subst hclose
          cases bracket with
          | true => exact ih h nofun
          | false => cases h
        by_cases hdot : c = '.' ∧ bracket = false
        · obtain ⟨rfl, rfl⟩ := hdot
          obtain ⟨others, hothers, h⟩ := ok_of_bind h
          cases h
          obtain ⟨last, hlast, hmem⟩ := ih hothers nofun
          exact ⟨last, by rw [List.getLast?_cons, hlast]; rfl, hmem⟩
        · rw [segmentsFrom_plain hbegin hclose hdot] at h
          exact ih h hkept
      · rw [segmentsFrom_quoted hout] at h
        exact ih h hkept

/-- After a filter no segment has a bracket. -/
theorem not_mem_of_stepsFrom (h : stepsFrom path limit true all = .ok steps) :
    ∀ t ∈ all, '[' ∉ t := by
  induction all generalizing steps with
  | nil => exact nofun
  | cons segment rest ih =>
      rw [stepsFrom] at h
      split at h
      case isTrue => cases h
      case isFalse hplain =>
          obtain ⟨back, hback, _⟩ := ok_of_bind h
          refine List.forall_mem_cons.mpr ⟨fun hmem => hplain ?_, ih hback⟩
          rw [List.contains_eq_mem, decide_eq_true hmem]

/-! ## A name and a bracket -/

section

variable {name text : String}

theorem trim_bracket (hname : IsName name.toList) (text : String) :
    Text.trim (name ++ "[" ++ text ++ "]").toList = (name ++ "[" ++ text ++ "]").toList := by
  rw [toList_bracket]
  exact hname.trim_bracket text.toList

theorem isQualified_bracket (hname : IsName name.toList) (text : String) :
    isQualified (name ++ "[" ++ text ++ "]").toList = false := by
  rw [toList_bracket]
  exact isQualified_append hname.unqualified (by decide)

/-- A name and a bracket that compile are one segment. -/
theorem segment_of_compile_bracket (hname : IsName name.toList)
    (h : compile limit (name ++ "[" ++ text ++ "]") = .ok steps) :
    segmentsFrom .outside false [] (name ++ "[" ++ text ++ "]").toList =
        .ok [(name ++ "[" ++ text ++ "]").toList] ∧
      stepsFrom (name ++ "[" ++ text ++ "]") limit false
        [(name ++ "[" ++ text ++ "]").toList] = .ok steps := by
  have htrim := trim_bracket hname text
  have hunqualified := unqualified_eq_self (isQualified_bracket hname text)
  obtain ⟨_, all, hall, hsteps⟩ := segments_of_compile h
  rw [htrim, hunqualified] at hall
  have hbehind := hall
  rw [toList_bracket, segmentsFrom_append hname.segment] at hbehind
  obtain ⟨first, rest, rfl, hfirst⟩ :=
    exists_first_of_segmentsFrom (s := text.toList ++ [']']) hbehind List.mem_cons_self
  obtain ⟨last, hlast, hmem⟩ :=
    exists_last_of_segmentsFrom (s := text.toList) hbehind fun _ => List.mem_cons_self
  -- A second segment would have a bracket behind the filter of the first one.
  have hrest : rest = [] := by
    by_contra hne
    rw [stepsFrom, List.contains_eq_mem, decide_eq_true hfirst, if_pos rfl,
      if_neg Bool.false_ne_true] at hsteps
    obtain ⟨_, _, hsteps⟩ := ok_of_bind hsteps
    obtain ⟨_, hback, _⟩ := ok_of_bind hsteps
    rw [List.getLast?_cons, List.getLast?_eq_some_getLast hne] at hlast
    cases hlast
    exact not_mem_of_stepsFrom hback _ (List.getLast_mem hne) hmem
  subst hrest
  have heq := eq_trim_of_segmentsFrom hall
  rw [htrim] at heq
  subst heq
  exact ⟨hall, hsteps⟩

/-- If a name and a bracket compile then what is in the bracket is a filter. -/
theorem exists_of_compile_bracket (hname : IsName name.toList)
    (h : compile limit (name ++ "[" ++ text ++ "]") = .ok steps) :
    ∃ tree, Filter.read limit text = .ok tree ∧ steps = [.name name, .filter tree] := by
  obtain ⟨_, hsteps⟩ := segment_of_compile_bracket hname h
  have hbracket : (name ++ "[" ++ text ++ "]").toList.contains '[' = true := by simp
  rw [stepsFrom, hbracket, if_pos rfl, if_neg Bool.false_ne_true, toList_bracket] at hsteps
  obtain ⟨front, hfront, hsteps⟩ := ok_of_bind hsteps
  cases hsteps
  rw [filteredSteps_bracket hname] at hfront
  cases hread : Filter.read limit text with
  | error cause =>
      rw [hread] at hfront
      cases hfront
  | ok tree =>
      rw [hread] at hfront
      cases hfront
      exact ⟨tree, rfl, rfl⟩

/-- A trimmed text with a name behind it is trimmed. -/
theorem trim_below {outer inner : String} (htrim : Text.trim outer.toList = outer.toList)
    (hne : outer.toList ≠ []) (hinner : IsName inner.toList) :
    Text.trim (outer ++ "." ++ inner).toList = (outer ++ "." ++ inner).toList := by
  have hlist : (outer ++ "." ++ inner).toList = outer.toList ++ '.' :: inner.toList := by simp
  rw [hlist]
  exact Text.trim_append_cons (Text.trim_eq_self_iff.mp htrim).1 hne hinner.trimEnd
    hinner.nonempty '.'

/-- A name behind a path of a name and a filter is one step more. -/
theorem compile_below_bracket {inner : String} {tree : Tree} (hname : IsName name.toList)
    (hinner : IsName inner.toList)
    (h : compile limit (name ++ "[" ++ text ++ "]") = .ok [.name name, .filter tree]) :
    compile limit (name ++ "[" ++ text ++ "]" ++ "." ++ inner) =
      .ok [.name name, .filter tree, .name inner] := by
  obtain ⟨_, hread, hsteps⟩ := exists_of_compile_bracket hname h
  cases hsteps
  obtain ⟨hsegment, _⟩ := segment_of_compile_bracket hname h
  have hnonempty : (name ++ "[" ++ text ++ "]").toList ≠ [] := by simp
  have hwhole : (name ++ "[" ++ text ++ "]" ++ "." ++ inner).toList =
      (name ++ "[" ++ text ++ "]").toList ++ '.' :: inner.toList := by simp
  have htrim := trim_below (trim_bracket hname text) hnonempty hinner
  have hqualified : isQualified (name ++ "[" ++ text ++ "]" ++ "." ++ inner).toList = false := by
    rw [hwhole]
    exact isQualified_append (isQualified_bracket hname text) (by decide)
  have hall : segmentsFrom .outside false [] (name ++ "[" ++ text ++ "]" ++ "." ++ inner).toList =
      .ok [(name ++ "[" ++ text ++ "]").toList, inner.toList] := by
    rw [hwhole, segmentsFrom_append hsegment, List.append_nil]
    show (segmentsFrom .outside false [] inner.toList >>= fun others =>
      .ok (Text.trim (name ++ "[" ++ text ++ "]").toList.reverse.reverse :: others)) = _
    rw [hinner.segment, List.reverse_reverse, trim_bracket hname text]
    rfl
  have hbracket : (name ++ "[" ++ text ++ "]").toList.contains '[' = true := by simp
  rw [compile_eq (by simp) htrim hqualified hall (by simp [hinner.isEmpty]), stepsFrom, hbracket,
    if_pos rfl, if_neg Bool.false_ne_true, toList_bracket, filteredSteps_bracket hname, hread,
    stepsFrom, hinner.noBracket, if_neg Bool.false_ne_true, stepsFrom, String.ofList_toList]
  rfl

end

/-! ## The text of a filter -/

section

variable {tree : Tree}

/-- A segment is a part of what is cut. -/
theorem sublist_of_segmentsFrom (h : segmentsFrom quoting bracket segment s = .ok all) :
    ∀ t ∈ all, t.Sublist (segment.reverse ++ s) := by
  fun_induction segmentsFrom quoting bracket segment s generalizing all with
  | case1 | case2 | case7 | case10 => cases h
  | case3 =>
      cases h
      intro t ht
      rw [List.mem_singleton.mp ht, List.append_nil]
      exact Text.trim_sublist _
  | case11 =>
      rename_i ih
      obtain ⟨others, hothers, h⟩ := ok_of_bind h
      cases h
      refine List.forall_mem_cons.mpr ⟨?_, fun t ht => ?_⟩
      · exact (Text.trim_sublist _).trans (List.sublist_append_left _ _)
      · exact ((ih hothers t ht).cons _).trans (List.sublist_append_right _ _)
  | case4 | case5 | case6 | case8 | case9 | case12 =>
      rename_i ih
      have hall := ih h
      rw [List.reverse_cons, List.append_assoc] at hall
      exact hall

/-- What stands in a bracket is shorter than a segment that has the bracket at its end. -/
theorem byteSize_of_bracketed {inner : List Char}
    (h : bracketed? ((segment.dropWhile (· != '[')).drop 1) = some inner) :
    Text.byteSize inner < Text.byteSize segment := by
  unfold bracketed? at h
  split at h
  case isFalse => cases h
  case isTrue hlast =>
      cases h
      have hbehind : ((segment.dropWhile (· != '[')).drop 1).Sublist segment :=
        (List.drop_sublist 1 _).trans (List.dropWhile_sublist _)
      have hle := Text.byteSize_le_of_sublist hbehind
      rw [← List.dropLast_append_getLast? _ hlast, Text.byteSize_append] at hle
      exact Nat.lt_of_lt_of_le (Nat.lt_add_of_pos_right (by decide)) hle

/-- The filter of a segment is read from less than the segment. -/
theorem read_of_filteredSteps (h : filteredSteps path limit segment = .ok steps)
    (hmem : Step.filter tree ∈ steps) :
    ∃ text : String, text.utf8ByteSize < Text.byteSize segment ∧
      Filter.read limit text = .ok tree := by
  unfold filteredSteps at h
  dsimp only at h
  split at h
  case isTrue => cases h
  case isFalse =>
      split at h
      case h_1 => cases h
      case h_2 inner hinner =>
          split at h
          case h_1 => cases h
          case h_2 hread =>
              cases h
              rcases List.mem_cons.mp hmem with hname | hmem
              · cases hname
              · cases List.mem_singleton.mp hmem
                refine ⟨_, ?_, hread⟩
                rw [← Text.byteSize_toList, String.toList_ofList]
                exact byteSize_of_bracketed hinner

/-- A filter step comes from a segment. -/
theorem exists_of_stepsFrom {used : Bool} (h : stepsFrom path limit used all = .ok steps)
    (hmem : Step.filter tree ∈ steps) :
    ∃ segment ∈ all, ∃ front, filteredSteps path limit segment = .ok front ∧
      Step.filter tree ∈ front := by
  fun_induction stepsFrom path limit used all generalizing steps with
  | case1 =>
      cases h
      cases hmem
  | case2 => cases h
  | case3 _ segment _ _ _ ih =>
      obtain ⟨front, hfront, h⟩ := ok_of_bind h
      obtain ⟨back, hback, h⟩ := ok_of_bind h
      cases h
      rcases List.mem_append.mp hmem with hmem | hmem
      · exact ⟨segment, List.mem_cons_self, front, hfront, hmem⟩
      · obtain ⟨t, ht, hrest⟩ := ih hback hmem
        exact ⟨t, List.mem_cons_of_mem _ ht, hrest⟩
  | case4 _ _ _ _ ih =>
      obtain ⟨back, hback, h⟩ := ok_of_bind h
      cases h
      rcases List.mem_cons.mp hmem with hname | hmem
      · cases hname
      · obtain ⟨t, ht, hrest⟩ := ih hback hmem
        exact ⟨t, List.mem_cons_of_mem _ ht, hrest⟩

/-- A path that compiles to a filter step is longer than the text that the filter is read from. -/
theorem read_of_compile (h : compile limit path = .ok steps) (hmem : Step.filter tree ∈ steps) :
    ∃ text : String, text.utf8ByteSize < path.utf8ByteSize ∧
      Filter.read limit text = .ok tree := by
  obtain ⟨_, all, hall, hsteps⟩ := segments_of_compile h
  obtain ⟨segment, hsegment, front, hfront, htree⟩ := exists_of_stepsFrom hsteps hmem
  obtain ⟨text, hsize, hread⟩ := read_of_filteredSteps hfront htree
  refine ⟨text, Nat.lt_of_lt_of_le hsize ?_, hread⟩
  have hcut := sublist_of_segmentsFrom hall segment hsegment
  rw [List.reverse_nil, List.nil_append] at hcut
  rw [← Text.byteSize_toList]
  exact Text.byteSize_le_of_sublist
    (hcut.trans ((unqualified_sublist _).trans (Text.trim_sublist _)))

end

end Path

end Scim
