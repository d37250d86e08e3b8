import Mathlib.Data.List.DropRight
import Mathlib.Data.List.TakeWhile
import Scim.Proofs.Filter.Scanning
import Scim.Proofs.Path.Steps

/-!
# Names in paths

A text that a path takes as one name is a path of one step (`compile_name`), and only such a text
is a path of one step to itself (`isName_of_compile`).  Names joined by dots are a path with a step
for each (`compile_dotted`), and a filter in brackets behind one is a path of a name and a
filter (`compile_bracket`).
-/

namespace Scim

/-! ## Trimmed texts -/

namespace Text

variable {s front back : List Char}

theorem trimEnd_sublist (s : List Char) : (trimEnd s).Sublist s :=
  (List.rdropWhile_prefix isBlank s).sublist

theorem trim_sublist (s : List Char) : (trim s).Sublist s :=
  (trimEnd_sublist _).trans (List.dropWhile_suffix isBlank).sublist

/-- A text is trimmed if it has no white space at its start and none at its end. -/
theorem trim_eq_self_iff : trim s = s ↔ trimStart s = s ∧ trimEnd s = s := by
  constructor
  · intro h
    have hstart : trimStart s = s := by
      refine (List.dropWhile_suffix isBlank).eq_of_length_le ?_
      have hle := (trimEnd_sublist (trimStart s)).length_le
      rw [show trimEnd (trimStart s) = s from h] at hle
      exact hle
    refine ⟨hstart, ?_⟩
    rw [trim, hstart] at h
    exact h
  · rintro ⟨hstart, hend⟩
    rw [trim, hstart, hend]

theorem trimStart_append (h : trimStart front = front) (hne : front ≠ []) :
    trimStart (front ++ back) = front ++ back := by
  obtain ⟨c, rest, rfl⟩ := List.exists_cons_of_ne_nil hne
  have hc := List.dropWhile_eq_self_iff.mp h (Nat.succ_pos _)
  exact List.dropWhile_eq_self_iff.mpr fun _ => hc

theorem trimEnd_append (h : trimEnd back = back) (hne : back ≠ []) :
    trimEnd (front ++ back) = front ++ back := by
  have hlast := List.rdropWhile_eq_self_iff.mp h hne
  refine List.rdropWhile_eq_self_iff.mpr fun hne' => ?_
  rw [List.getLast_append_of_ne_nil hne' hne]
  exact hlast

/-- Two texts that are trimmed where they end are trimmed together. -/
theorem trim_append (hfront : trimStart front = front) (hne : front ≠ [])
    (hback : trimEnd back = back) (hne' : back ≠ []) : trim (front ++ back) = front ++ back :=
  trim_eq_self_iff.mpr ⟨trimStart_append hfront hne, trimEnd_append hback hne'⟩

/-- A character between two such texts does not matter. -/
theorem trim_append_cons (hfront : trimStart front = front) (hne : front ≠ [])
    (hback : trimEnd back = back) (hne' : back ≠ []) (c : Char) :
    trim (front ++ c :: back) = front ++ c :: back := by
  have hend : trimEnd ([c] ++ back) = [c] ++ back := trimEnd_append hback hne'
  exact trim_append hfront hne hend (List.cons_ne_nil c back)

/-- A text without white space is trimmed. -/
theorem trim_of_notBlank (h : ∀ c ∈ s, isBlank c = false) : trim s = s := by
  have hdrop : ∀ {t : List Char}, (∀ c ∈ t, isBlank c = false) → t.dropWhile isBlank = t := by
    intro t ht
    exact List.dropWhile_eq_self_iff.mpr fun hlength => by simp [ht _ (List.getElem_mem hlength)]
  refine trim_eq_self_iff.mpr ⟨hdrop h, ?_⟩
  rw [trimEnd, hdrop fun c hc => h c (List.mem_reverse.mp hc), List.reverse_reverse]

end Text

namespace Path

open Scim.Filter (Tree)
open Scim.Filter.Scanner (Quoting Unbracketed)

variable {a q s front back : List Char} {limit : Nat} {path : String}

/-! ## Qualifiers -/

/-- A character that is not in `urn:` ends what may be the start of a qualifier. -/
theorem isQualified_append {c : Char} (hs : isQualified s = false)
    (hc : c.toLower ∉ ['u', 'r', 'n', ':']) : isQualified (s ++ c :: back) = false := by
  by_cases hlength : 4 ≤ s.length
  · rw [isQualified, List.take_append_of_le_length hlength]
    exact hs
  · refine Bool.eq_false_iff.mpr fun h => hc ?_
    have hfolded := Text.alike_iff.mp h
    have hmem : c ∈ (s ++ c :: back).take 4 := by
      obtain ⟨k, hk⟩ : ∃ k, 4 - s.length = k + 1 := ⟨3 - s.length, by omega⟩
      rw [List.take_append, hk, List.take_succ_cons]
      exact List.mem_append_right _ List.mem_cons_self
    have hlower : c.toLower ∈ Text.folded (String.ofList ((s ++ c :: back).take 4)) := by
      rw [Text.folded, String.toList_ofList]
      exact List.mem_map_of_mem hmem
    rw [hfolded] at hlower
    exact hlower

/-- The start of a qualifier has a colon. -/
theorem colon_mem_of_isQualified (h : isQualified s = true) : ':' ∈ s := by
  have hfolded : Text.folded (String.ofList (s.take 4)) = ['u', 'r', 'n', ':'] :=
    Text.alike_iff.mp h
  rw [Text.folded, String.toList_ofList] at hfolded
  have hmem : ':' ∈ (s.take 4).map Char.toLower := by rw [hfolded]; decide
  obtain ⟨c, hc, hlower⟩ := List.mem_map.mp hmem
  rw [Text.eq_of_toLower (by decide) hlower] at hc
  exact List.mem_of_mem_take hc

theorem unqualified_sublist (s : List Char) : (unqualified s).Sublist s := by
  unfold unqualified
  split
  · have hback : (afterLastColon (s.takeWhile (· != '['))).Sublist (s.takeWhile (· != '[')) :=
      (List.rtakeWhile_suffix _ _).sublist
    have h := hback.append (List.Sublist.refl (s.dropWhile (· != '[')))
    rw [List.takeWhile_append_dropWhile] at h
    exact h
  · exact List.Sublist.refl s

/-- A text without a qualifier has nothing to drop. -/
theorem unqualified_eq_self (h : isQualified s = false) : unqualified s = s := by
  rw [unqualified, h, if_neg Bool.false_ne_true]

/-- What drops nothing as a qualifier has none. -/
theorem isQualified_of_unqualified (h : unqualified s = s) (hbracket : s.contains '[' = false) :
    isQualified s = false := by
  by_contra hqualified
  have hqualified : isQualified s = true := by simpa using hqualified
  have hplain : ∀ c ∈ s, (c != '[') = true := by
    intro c hc
    refine bne_iff_ne.mpr ?_
    rintro rfl
    rw [List.contains_eq_mem, decide_eq_true hc] at hbracket
    cases hbracket
  have hcolon : ':' ∉ s := by
    rw [unqualified, hqualified, if_pos rfl, List.takeWhile_eq_self_iff.mpr hplain,
      List.dropWhile_eq_nil_iff.mpr hplain, List.append_nil] at h
    intro hmem
    rw [← h, afterLastColon, List.mem_reverse] at hmem
    exact absurd (List.mem_takeWhile_imp (p := fun c => c != ':') hmem) (by decide)
  exact hcolon (colon_mem_of_isQualified hqualified)

/-! ## Segments -/

/-- A character between quotes belongs to the segment. -/
theorem segmentsFrom_quoted {quoting : Quoting} {bracket : Bool} {segment rest : List Char}
    {c : Char} (h : quoting ≠ .outside) :
    segmentsFrom quoting bracket segment (c :: rest) =
      segmentsFrom (quoting.after c) bracket (c :: segment) rest := by
  cases quoting with
  | outside => exact absurd rfl h
  | inside => rfl
  | escaped => rfl

/-- A character outside of quotes that is no bracket and does not cut belongs to the segment. -/
theorem segmentsFrom_plain {bracket : Bool} {segment rest : List Char} {c : Char}
    (hopen : c ≠ '[') (hclose : c ≠ ']') (hdot : ¬ (c = '.' ∧ bracket = false)) :
    segmentsFrom .outside bracket segment (c :: rest) =
      segmentsFrom (Quoting.outside.after c) bracket (c :: segment) rest := by
  rw [segmentsFrom.eq_def]
  dsimp only
  rw [if_neg hopen, if_neg hclose, if_neg hdot]
  by_cases hquote : c = '"'
  · subst hquote
    rfl
  · rw [if_neg hquote, Quoting.after, if_neg hquote]

/-- In a bracket, a text without brackets is part of the segment. -/
theorem segmentsFrom_unbracketed {quoting : Quoting} {segment : List Char}
    (h : Unbracketed quoting s) :
    segmentsFrom quoting true segment (s ++ back) =
      segmentsFrom .outside true (s.reverse ++ segment) back := by
  induction s generalizing quoting segment with
  | nil =>
      cases h
      rfl
  | cons c rest ih =>
      obtain ⟨hplain, hrest⟩ := h
      rw [List.cons_append, List.reverse_cons, List.append_assoc, List.singleton_append, ← ih hrest]
      by_cases hout : quoting = .outside
      · subst hout
        exact segmentsFrom_plain (hplain rfl).1 (hplain rfl).2 (fun hdot => nomatch hdot.2)
      · exact segmentsFrom_quoted hout

/-- A text that is one segment leaves the rest to a new one. -/
theorem segmentsFrom_append {quoting : Quoting} {bracket : Bool} {segment t : List Char}
    (h : segmentsFrom quoting bracket segment s = .ok [t]) :
    segmentsFrom quoting bracket segment (s ++ back) =
      segmentsFrom .outside false (s.reverse ++ segment) back := by
  induction s generalizing quoting bracket segment with
  | nil =>
      rw [segmentsFrom] at h
      split at h
      · cases h
      · rename_i hquoting
        split at h
        · cases h
        · rename_i hbracket
          rw [Decidable.not_not.mp hquoting, Bool.eq_false_iff.mpr hbracket]
          rfl
  | cons c rest ih =>
      rw [List.cons_append, List.reverse_cons, List.append_assoc, List.singleton_append]
      by_cases hout : quoting = .outside
      · subst hout
        by_cases hopen : c = '['
        · subst hopen
          cases bracket with
          | true => cases h
          | false => exact ih h
        by_cases hclose : c = ']'
        · subst hclose
          cases bracket with
          | true => exact ih h
          | false => cases h
        by_cases hdot : c = '.' ∧ bracket = false
        · obtain ⟨rfl, rfl⟩ := hdot
          obtain ⟨others, hothers, h⟩ := ok_of_bind h
          cases h
          exact absurd rfl (segmentsFrom_ne_nil hothers)
        · rw [segmentsFrom_plain hopen hclose hdot] at h ⊢
          exact ih h
      · rw [segmentsFrom_quoted hout] at h ⊢
        exact ih h

/-- The one segment of a text is the text without white space around it. -/
theorem eq_trim_of_segmentsFrom {t : List Char}
    (h : segmentsFrom .outside false [] s = .ok [t]) : t = Text.trim s := by
  have happend : segmentsFrom .outside false [] (s ++ []) = _ := segmentsFrom_append h
  rw [List.append_nil, h, List.append_nil] at happend
  cases happend
  rw [List.reverse_reverse]

/-! ## Names -/

/-- A text that a path takes as one name. -/
structure IsName (s : List Char) : Prop where
  nonempty : s ≠ []
  trimmed : Text.trim s = s
  unqualified : isQualified s = false
  segment : segmentsFrom .outside false [] s = .ok [s]
  noBracket : s.contains '[' = false

theorem IsName.trimEnd (h : IsName s) : Text.trimEnd s = s :=
  (Text.trim_eq_self_iff.mp h.trimmed).2

theorem IsName.isEmpty (h : IsName s) : s.isEmpty = false :=
  Bool.eq_false_iff.mpr fun hempty => h.nonempty (List.isEmpty_iff.mp hempty)

/-- The steps of a trimmed path come from the segments of what is behind its qualifier. -/
theorem compile_of_segments {all : List (List Char)}
    (htrim : Text.trim path.toList = path.toList) (hs : unqualified path.toList = s)
    (hempty : s ≠ []) (hall : segmentsFrom .outside false [] s = .ok all)
    (hne : all.any List.isEmpty = false) :
    compile limit path = stepsFrom path limit false all := by
  have hsegments : segments s = .ok all := by
    rw [segments, hall]
    show (if all.any List.isEmpty = true then _ else _) = _
    rw [hne]
    rfl
  have hnonempty : ¬ s.isEmpty = true := fun h => hempty (List.isEmpty_iff.mp h)
  unfold compile
  dsimp only
  rw [htrim, hs, if_neg hnonempty, hsegments]

/-- The steps of a text that is trimmed and has no qualifier come from its segments. -/
theorem compile_eq {all : List (List Char)} (hempty : path.toList ≠ [])
    (htrim : Text.trim path.toList = path.toList) (hqualified : isQualified path.toList = false)
    (hall : segmentsFrom .outside false [] path.toList = .ok all)
    (hne : all.any List.isEmpty = false) :
    compile limit path = stepsFrom path limit false all :=
  compile_of_segments htrim (unqualified_eq_self hqualified) hempty hall hne

/-- A name is a path of one step. -/
theorem compile_name {name : String} (h : IsName name.toList) :
    compile limit name = .ok [.name name] := by
  rw [compile_eq h.nonempty h.trimmed h.unqualified h.segment (by simp [h.isEmpty]), stepsFrom,
    h.noBracket, if_neg Bool.false_ne_true, stepsFrom, String.ofList_toList]
  rfl

/-- Steps to one name come from a segment of that name. -/
theorem eq_of_stepsFrom {name : String} {used : Bool} {segments : List (List Char)}
    (h : stepsFrom path limit used segments = .ok [.name name]) :
    segments = [name.toList] ∧ name.toList.contains '[' = false := by
  cases segments with
  | nil => cases h
  | cons segment rest =>
      rw [stepsFrom] at h
      split at h
      case isTrue =>
          split at h
          · cases h
          · obtain ⟨front, hfront, h⟩ := ok_of_bind h
            obtain ⟨back, _, h⟩ := ok_of_bind h
            obtain ⟨_, _, rfl⟩ := filteredSteps_eq hfront
            cases h
      case isFalse hplain =>
          obtain ⟨others, hothers, h⟩ := ok_of_bind h
          cases h
          have hrest : rest = [] := by
            by_contra hne
            exact stepsFrom_ne_nil hne hothers rfl
          rw [hrest, String.toList_ofList]
          exact ⟨rfl, Bool.eq_false_iff.mpr hplain⟩

/-- A text that compiles to one step to itself is a name. -/
theorem isName_of_compile {name : String} (h : compile limit name = .ok [.name name]) :
    IsName name.toList := by
  obtain ⟨hempty, all, hfound, hsteps⟩ := segments_of_compile h
  obtain ⟨rfl, hbracket⟩ := eq_of_stepsFrom hsteps
  have heq := eq_trim_of_segmentsFrom hfound
  have hlength := (Text.trim_sublist (unqualified (Text.trim name.toList))).length_le
  rw [← heq] at hlength
  have htrim : Text.trim name.toList = name.toList :=
    (Text.trim_sublist _).eq_of_length_le (hlength.trans (unqualified_sublist _).length_le)
  rw [htrim] at hempty hfound hlength
  have hunqualified : unqualified name.toList = name.toList :=
    (unqualified_sublist _).eq_of_length_le hlength
  rw [hunqualified] at hempty hfound
  exact ⟨hempty, htrim, isQualified_of_unqualified hunqualified hbracket, hfound, hbracket⟩

/-! ## Names joined by dots -/

section

variable {names : List String}

theorem toList_intercalate_cons (name next : String) (rest : List String) :
    (".".intercalate (name :: next :: rest)).toList =
      name.toList ++ '.' :: (".".intercalate (next :: rest)).toList := by
  simp [String.intercalate_cons_of_ne_nil]

/-- Trimmed texts joined by dots are trimmed. -/
theorem trim_joined (h : ∀ n ∈ names, n.toList ≠ [] ∧ Text.trim n.toList = n.toList)
    (hne : names ≠ []) :
    (".".intercalate names).toList ≠ [] ∧
      Text.trim (".".intercalate names).toList = (".".intercalate names).toList := by
  induction names with
  | nil => exact absurd rfl hne
  | cons name rest ih =>
      obtain ⟨⟨hname, htrim⟩, hrest⟩ := List.forall_mem_cons.mp h
      cases rest with
      | nil =>
          rw [String.intercalate_singleton]
          exact ⟨hname, htrim⟩
      | cons next rest =>
          obtain ⟨hnonempty, htrim'⟩ := ih hrest (List.cons_ne_nil _ _)
          have hfront := (Text.trim_eq_self_iff.mp htrim).1
          have hback := (Text.trim_eq_self_iff.mp htrim').2
          rw [toList_intercalate_cons]
          exact ⟨by simp, Text.trim_append_cons hfront hname hback hnonempty '.'⟩

/-- No qualifier starts with texts joined by dots if none starts with the first of them. -/
theorem isQualified_joined {name : String} (h : isQualified name.toList = false)
    (rest : List String) : isQualified (".".intercalate (name :: rest)).toList = false := by
  cases rest with
  | nil =>
      rw [String.intercalate_singleton]
      exact h
  | cons next rest =>
      rw [toList_intercalate_cons]
      exact isQualified_append h (by decide)

/-- Names joined by dots are trimmed, and no qualifier starts with them. -/
theorem trim_dotted (h : ∀ n ∈ names, IsName n.toList) (hne : names ≠ []) :
    (".".intercalate names).toList ≠ [] ∧
      Text.trim (".".intercalate names).toList = (".".intercalate names).toList ∧
      isQualified (".".intercalate names).toList = false := by
  obtain ⟨hnonempty, htrim⟩ := trim_joined (fun n hn => ⟨(h n hn).nonempty, (h n hn).trimmed⟩) hne
  obtain ⟨name, rest, rfl⟩ := List.exists_cons_of_ne_nil hne
  exact ⟨hnonempty, htrim, isQualified_joined (h name List.mem_cons_self).unqualified rest⟩

/-- Segments joined by dots are cut at the dots. -/
theorem segmentsFrom_dotted
    (h : ∀ n ∈ names, segmentsFrom .outside false [] n.toList = .ok [n.toList])
    (hne : names ≠ []) :
    segmentsFrom .outside false [] (".".intercalate names).toList =
      .ok (names.map String.toList) := by
  induction names with
  | nil => exact absurd rfl hne
  | cons name rest ih =>
      obtain ⟨hname, hrest⟩ := List.forall_mem_cons.mp h
      cases rest with
      | nil =>
          rw [String.intercalate_singleton]
          exact hname
      | cons next rest =>
          rw [toList_intercalate_cons, segmentsFrom_append hname, List.append_nil]
          show (segmentsFrom .outside false [] (".".intercalate (next :: rest)).toList >>=
            fun others => .ok (Text.trim name.toList.reverse.reverse :: others)) = _
          rw [ih hrest (List.cons_ne_nil _ _), List.reverse_reverse,
            ← eq_trim_of_segmentsFrom hname]
          rfl

/-- Segments without brackets have one step each. -/
theorem stepsFrom_names {used : Bool} (h : ∀ n ∈ names, n.toList.contains '[' = false) :
    stepsFrom path limit used (names.map String.toList) = .ok (names.map .name) := by
  induction names with
  | nil => rfl
  | cons name rest ih =>
      obtain ⟨hname, hrest⟩ := List.forall_mem_cons.mp h
      rw [List.map_cons, stepsFrom, hname, if_neg Bool.false_ne_true, ih hrest,
        String.ofList_toList]
      rfl

/-- Names joined by dots are a path with a step for each. -/
theorem compile_dotted (h : ∀ n ∈ names, IsName n.toList) (hne : names ≠ []) :
    compile limit (".".intercalate names) = .ok (names.map .name) := by
  obtain ⟨hnonempty, htrim, hqualified⟩ := trim_dotted h hne
  have hsegments : (names.map String.toList).any List.isEmpty = false := by
    rw [List.any_eq_false]
    intro s hs
    obtain ⟨n, hn, rfl⟩ := List.mem_map.mp hs
    simp [(h n hn).isEmpty]
  rw [compile_eq hnonempty htrim hqualified
    (segmentsFrom_dotted (fun n hn => (h n hn).segment) hne) hsegments]
  exact stepsFrom_names fun n hn => (h n hn).noBracket

/-- A name below a name is a path of two steps. -/
theorem compile_member {outer inner : String} (h : IsName outer.toList) (h' : IsName inner.toList) :
    compile limit (outer ++ "." ++ inner) = .ok [.name outer, .name inner] := by
  have hnames : ∀ n ∈ [outer, inner], IsName n.toList := by simp [h, h']
  have hdotted : compile limit (".".intercalate [outer, inner]) = .ok ([outer, inner].map .name) :=
    compile_dotted hnames (List.cons_ne_nil _ _)
  rwa [String.intercalate_cons_of_ne_nil (List.cons_ne_nil _ _), String.intercalate_singleton]
    at hdotted

/-- A name that has none of the characters that mean something in a path, and no white space. -/
structure IsPlain (name : String) : Prop where
  nonempty : name ≠ ""
  notBlank : ∀ c ∈ name.toList, Text.isBlank c = false
  notSpecial : ∀ c ∈ name.toList, c ∉ ['.', '[', ']', '"', ':']

instance (name : String) : Decidable (IsPlain name) :=
  decidable_of_iff
    (name ≠ "" ∧ name.toList.all (fun c => !Text.isBlank c) = true ∧
      name.toList.all (fun c => decide (c ∉ ['.', '[', ']', '"', ':'])) = true)
    ⟨fun ⟨hne, hblank, hspecial⟩ => ⟨hne, by simpa using hblank,
        fun c hc => of_decide_eq_true (List.all_eq_true.mp hspecial c hc)⟩,
      fun h => ⟨h.nonempty, by simpa using h.notBlank,
        List.all_eq_true.mpr fun c hc => decide_eq_true (h.notSpecial c hc)⟩⟩

/-- A text without dots, brackets and quotes is one segment. -/
theorem segmentsFrom_plain_all {segment : List Char} (h : ∀ c ∈ s, c ∉ ['.', '[', ']', '"']) :
    segmentsFrom .outside false segment s = .ok [Text.trim (s.reverse ++ segment).reverse] := by
  induction s generalizing segment with
  | nil => rfl
  | cons c rest ih =>
      obtain ⟨hc, hrest⟩ := List.forall_mem_cons.mp h
      simp only [List.mem_cons, not_or] at hc
      obtain ⟨hdot, hopen, hclose, hquote, -⟩ := hc
      rw [segmentsFrom_plain hopen hclose (fun hcut => hdot hcut.1), Quoting.after, if_neg hquote,
        ih hrest, List.reverse_cons, List.append_assoc, List.singleton_append]

/-- A plain name is taken as a name. -/
theorem IsPlain.isName {name : String} (h : IsPlain name) : IsName name.toList := by
  have hspecial : ∀ {c : Char}, c ∈ ['.', '[', ']', '"', ':'] → c ∉ name.toList :=
    fun hc hmem => h.notSpecial _ hmem hc
  have htrim := Text.trim_of_notBlank h.notBlank
  refine ⟨fun hnil => h.nonempty (String.toList_eq_nil_iff.mp hnil), htrim, ?_, ?_, ?_⟩
  · exact Bool.eq_false_iff.mpr fun hqualified =>
      hspecial (by decide) (colon_mem_of_isQualified hqualified)
  · have hplain : ∀ c ∈ name.toList, c ∉ ['.', '[', ']', '"'] := fun c hc hmem =>
      h.notSpecial c hc (List.mem_append_left [':'] hmem)
    rw [segmentsFrom_plain_all hplain, List.append_nil, List.reverse_reverse, htrim]
  · rw [List.contains_eq_mem, decide_eq_false (hspecial (by decide))]

end

/-! ## A bracket behind a name -/

theorem toList_bracket (name text : String) :
    (name ++ "[" ++ text ++ "]").toList = name.toList ++ '[' :: (text.toList ++ [']']) := by
  simp

/-- A text that is one segment of a path, without a bracket. -/
structure IsLabel (s : List Char) : Prop where
  nonempty : s ≠ []
  trimmed : Text.trim s = s
  segment : segmentsFrom .outside false [] s = .ok [s]
  noBracket : s.contains '[' = false

theorem IsName.label (h : IsName s) : IsLabel s := ⟨h.nonempty, h.trimmed, h.segment, h.noBracket⟩

/-- A label with a bracket behind it is trimmed. -/
theorem IsLabel.trim_bracket (h : IsLabel s) (text : List Char) :
    Text.trim (s ++ '[' :: (text ++ [']'])) = s ++ '[' :: (text ++ [']']) := by
  have hback : Text.trimEnd ('[' :: text ++ [']']) = '[' :: text ++ [']'] :=
    Text.trimEnd_append rfl (List.cons_ne_nil _ _)
  exact Text.trim_append (Text.trim_eq_self_iff.mp h.trimmed).1 h.nonempty hback
    (List.cons_ne_nil _ _)

/-- A name with a bracket behind it is trimmed. -/
theorem IsName.trim_bracket (h : IsName s) (text : List Char) :
    Text.trim (s ++ '[' :: (text ++ [']'])) = s ++ '[' :: (text ++ [']']) :=
  h.label.trim_bracket text

/-- A label with a bracket behind it is one segment. -/
theorem IsLabel.segment_bracket {text : List Char} (h : IsLabel s)
    (htext : Unbracketed .outside text) :
    segmentsFrom .outside false [] (s ++ '[' :: (text ++ [']'])) =
      .ok [s ++ '[' :: (text ++ [']'])] := by
  rw [segmentsFrom_append h.segment]
  show segmentsFrom .outside true ('[' :: (s.reverse ++ [])) (text ++ [']']) = _
  rw [segmentsFrom_unbracketed htext]
  have hreverse : (']' :: (text.reverse ++ '[' :: (s.reverse ++ []))).reverse =
      s ++ '[' :: (text ++ [']']) := by simp
  show Except.ok [Text.trim (']' :: (text.reverse ++ '[' :: (s.reverse ++ []))).reverse] = _
  rw [hreverse, h.trim_bracket]

/-- A segment of a label and a filter in brackets has a step for each. -/
theorem IsLabel.filteredSteps {name : String} (h : IsLabel name.toList) (text : String) :
    filteredSteps path limit (name.toList ++ '[' :: (text.toList ++ [']'])) =
      match Filter.read limit text with
      | .error cause => .error (.filter path cause)
      | .ok tree => .ok [.name name, .filter tree] := by
  have hplain : ∀ c ∈ name.toList, (c != '[') = true := by
    intro c hc
    refine bne_iff_ne.mpr ?_
    rintro rfl
    have hmem := h.noBracket
    rw [List.contains_eq_mem, decide_eq_true hc] at hmem
    cases hmem
  have htake : (name.toList ++ '[' :: (text.toList ++ [']'])).takeWhile (· != '[') =
      name.toList := by
    rw [List.takeWhile_append_of_pos hplain]
    exact List.append_nil _
  have hdrop : (name.toList ++ '[' :: (text.toList ++ [']'])).dropWhile (· != '[') =
      '[' :: (text.toList ++ [']']) := by
    rw [List.dropWhile_append_of_pos hplain]
    rfl
  have hinner : bracketed? (text.toList ++ [']']) = some text.toList := by
    rw [bracketed?, List.getLast?_concat, if_pos rfl, List.dropLast_concat]
  have hempty : name.toList.isEmpty = false :=
    Bool.eq_false_iff.mpr fun hempty => h.nonempty (List.isEmpty_iff.mp hempty)
  unfold Path.filteredSteps
  dsimp only
  rw [htake, hdrop, h.trimmed, hempty, if_neg Bool.false_ne_true, List.drop_one, List.tail_cons,
    hinner]
  dsimp only
  rewrite [String.ofList_toList, String.ofList_toList]
  cases Filter.read limit text <;> rfl

/-- A segment of a name and a filter in brackets has a step for each. -/
theorem filteredSteps_bracket {name : String} (h : IsName name.toList) (text : String) :
    filteredSteps path limit (name.toList ++ '[' :: (text.toList ++ [']'])) =
      match Filter.read limit text with
      | .error cause => .error (.filter path cause)
      | .ok tree => .ok [.name name, .filter tree] :=
  h.label.filteredSteps text

/-- A filter in brackets behind a name is a path of the name and the filter. -/
theorem compile_bracket {name text : String} {tree : Tree} (h : IsName name.toList)
    (htext : Unbracketed .outside text.toList) (hread : Filter.read limit text = .ok tree) :
    compile limit (name ++ "[" ++ text ++ "]") = .ok [.name name, .filter tree] := by
  have hlist := toList_bracket name text
  have htrim := h.trim_bracket text.toList
  have hsegment := h.label.segment_bracket htext
  rw [compile_eq (by simp) (hlist ▸ htrim)
    (hlist ▸ isQualified_append h.unqualified (by decide)) (hlist ▸ hsegment) (by simp)]
  have hbracket : (name.toList ++ '[' :: (text.toList ++ [']'])).contains '[' = true := by simp
  rw [stepsFrom, hlist, if_pos hbracket, if_neg Bool.false_ne_true, filteredSteps_bracket h, hread,
    stepsFrom]
  rfl

end Path

end Scim
