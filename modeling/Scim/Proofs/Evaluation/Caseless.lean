import Scim.Proofs.Evaluation.Coherence

/-!
# Comparison without regard to case

Texts that are compared without regard to case are lower-cased first, each as a whole.  Lower-casing
goes through a text character by character, and only for a capital sigma it looks at the characters
around.  So what is equal stays equal, but a piece that is found in a text with regard to case is
found in it without regard to case only if its capital sigmas take the same form in the text and
alone (`Text.KeepsSigmas`).

For `sw` and `ew` that is exactly the condition, for `co` it suffices
(`Comparison.relates_caseless`).  Every constant without a capital sigma meets it.  A text that goes
on behind a final sigma does not even start with its own first characters
(`Comparison.not_sw_own_start`).
-/

namespace Scim

namespace Text

variable {before before' after after' piece rest s t : List Char} {c : Char}

/-! ## Lower-casing a piece of a text -/

/-- Whether a capital sigma between the characters `before`, newest first, and the characters
`after` ends a word. -/
def endsWord (before after : List Char) : Bool := meetsCased before && !meetsCased after

/-- Lower-cases a piece of a text between the characters `before`, newest first, and `after`. -/
def lowerBetween (before after : List Char) : List Char → List Char
  | [] => []
  | c :: rest => lowerAt before c (rest ++ after) ++ lowerBetween (c :: before) after rest

theorem lowerBetween_nil_right (before s : List Char) :
    lowerBetween before [] s = lowerFrom before s := by
  induction s generalizing before with
  | nil => rfl
  | cons c rest ih => rw [lowerBetween, ih, List.append_nil, lowerFrom]

theorem lowerBetween_append (before after s t : List Char) :
    lowerBetween before after (s ++ t) =
      lowerBetween before (t ++ after) s ++ lowerBetween (s.reverse ++ before) after t := by
  induction s generalizing before with
  | nil => rfl
  | cons c rest ih =>
      rw [List.cons_append, lowerBetween, ih, lowerBetween, List.append_assoc, List.append_assoc,
        List.reverse_cons, List.append_assoc, List.singleton_append]

/-- The lower-cased text is that of its pieces, each lower-cased where it stands. -/
theorem lowerCase_append (s t : List Char) :
    lowerCase (s ++ t) = lowerBetween [] t s ++ lowerBetween s.reverse [] t := by
  rw [lowerCase, ← lowerBetween_nil_right, lowerBetween_append, List.append_nil, List.append_nil]

/-- Only a capital sigma depends on the characters around it. -/
theorem lowerAt_congr (h : c ≠ 'Σ') : lowerAt before c after = lowerAt before' c after' := by
  simp only [lowerAt, h, if_false]

/-- A capital sigma takes one of two forms. -/
theorem lowerAt_sigma (before after : List Char) :
    lowerAt before 'Σ' after = [if endsWord before after then 'ς' else 'σ'] := rfl

theorem lowerAt_sigma_inj :
    lowerAt before 'Σ' after = lowerAt before' 'Σ' after' ↔
      endsWord before after = endsWord before' after' := by
  rw [lowerAt_sigma, lowerAt_sigma]
  cases endsWord before after <;> cases endsWord before' after' <;> decide

/-- A character becomes as many characters wherever it stands. -/
theorem length_lowerAt (before before' after after' : List Char) (c : Char) :
    (lowerAt before c after).length = (lowerAt before' c after').length := by
  by_cases hc : c = 'Σ'
  · subst hc
    rfl
  · rw [lowerAt_congr hc]

/-- A piece becomes as many characters wherever it stands. -/
theorem length_lowerBetween (before before' after after' s : List Char) :
    (lowerBetween before after s).length = (lowerBetween before' after' s).length := by
  induction s generalizing before before' with
  | nil => rfl
  | cons c rest ih =>
      rw [lowerBetween, lowerBetween, List.length_append, List.length_append,
        length_lowerAt before before' _ (rest ++ after'), ih]

/-! ## Pieces that keep their form -/

/-- The capital sigmas of a piece of a text end words in the text exactly if they do so in the
piece alone. -/
def KeepsSigmas (before after piece : List Char) : Prop :=
  ∀ s t, piece = s ++ 'Σ' :: t →
    endsWord (s.reverse ++ before) (t ++ after) = endsWord s.reverse t

theorem keepsSigmas_of_not_mem (h : 'Σ' ∉ piece) : KeepsSigmas before after piece := by
  rintro s t rfl
  simp at h

/-- A piece is lower-cased in the same way in two places exactly if its capital sigmas end words in
both or in neither. -/
theorem lowerBetween_inj :
    lowerBetween before after piece = lowerBetween before' after' piece ↔
      ∀ s t, piece = s ++ 'Σ' :: t →
        endsWord (s.reverse ++ before) (t ++ after) =
          endsWord (s.reverse ++ before') (t ++ after') := by
  constructor
  · rintro h s t rfl
    rw [lowerBetween_append, lowerBetween_append] at h
    obtain ⟨_, hrest⟩ := List.append_inj h (length_lowerBetween ..)
    rw [lowerBetween, lowerBetween] at hrest
    exact lowerAt_sigma_inj.mp (List.append_inj_left hrest (length_lowerAt ..))
  · intro h
    induction piece generalizing before before' with
    | nil => rfl
    | cons c rest ih =>
        have hhead : lowerAt before c (rest ++ after) = lowerAt before' c (rest ++ after') := by
          by_cases hc : c = 'Σ'
          · subst hc
            exact lowerAt_sigma_inj.mpr (h [] rest rfl)
          · exact lowerAt_congr hc
        have hrest : lowerBetween (c :: before) after rest =
            lowerBetween (c :: before') after' rest := by
          refine ih fun s t hst => ?_
          have hwhole := h (c :: s) t (by rw [hst, List.cons_append])
          simpa using hwhole
        rw [lowerBetween, lowerBetween, hhead, hrest]

/-- A piece is lower-cased as it is alone exactly if it keeps its sigmas. -/
theorem lowerBetween_eq_lowerCase :
    lowerBetween before after piece = lowerCase piece ↔ KeepsSigmas before after piece := by
  rw [lowerCase, ← lowerBetween_nil_right, lowerBetween_inj]
  simp only [List.append_nil, KeepsSigmas]

/-- A text starts with its own first characters, lower-cased, exactly if they keep their sigmas. -/
theorem lowerCase_prefix_iff :
    lowerCase piece <+: lowerCase (piece ++ rest) ↔ KeepsSigmas [] rest piece := by
  rw [← lowerBetween_eq_lowerCase, lowerCase_append]
  have hlength : (lowerBetween [] rest piece).length = (lowerCase piece).length := by
    rw [lowerCase, ← lowerBetween_nil_right, length_lowerBetween]
  constructor
  · intro h
    have hle := List.prefix_of_prefix_length_le (List.prefix_append ..) h (Nat.le_of_eq hlength)
    exact hle.eq_of_length hlength
  · intro h
    rw [h]
    exact List.prefix_append ..

/-- A text ends with its own last characters, lower-cased, exactly if they keep their sigmas. -/
theorem lowerCase_suffix_iff :
    lowerCase piece <:+ lowerCase (rest ++ piece) ↔ KeepsSigmas rest.reverse [] piece := by
  rw [← lowerBetween_eq_lowerCase, lowerCase_append]
  have hlength : (lowerBetween rest.reverse [] piece).length = (lowerCase piece).length := by
    rw [lowerCase, ← lowerBetween_nil_right, length_lowerBetween]
  constructor
  · intro h
    have hle := List.suffix_of_suffix_length_le (List.suffix_append ..) h (Nat.le_of_eq hlength)
    exact hle.eq_of_length hlength
  · intro h
    rw [h]
    exact List.suffix_append ..

/-- A text contains a piece of it, lower-cased, if the piece keeps its sigmas. -/
theorem lowerCase_infix (h : KeepsSigmas s.reverse t piece) :
    lowerCase piece <:+: lowerCase (s ++ piece ++ t) := by
  refine ⟨lowerBetween [] (piece ++ t) s, lowerBetween (piece.reverse ++ s.reverse) [] t, ?_⟩
  rw [List.append_assoc s, lowerCase_append, lowerBetween_append, List.append_nil,
    lowerBetween_eq_lowerCase.mpr h, List.append_assoc]

end Text

open Text (KeepsSigmas)

/-- The same attribute, compared without regard to case. -/
def Attribute.caseless (a : Attribute) : Attribute := { a with caseExact := false }

namespace Comparison

variable {a : Attribute} {op : Filter.Operator} {x y : String}

/-! ## Values of text attributes -/

/-- A text is in a relation to a constant if the attribute is single-valued and the texts are. -/
theorem relates_texts (htext : a.type = .string ∨ a.type = .reference) :
    relates op (some ⟨.string x, a⟩) (.string y) = true ↔
      a.multiValued = false ∧ texts op a.caseExact x y = true := by
  have hsimple : a.isComplex = false :=
    decide_eq_false fun hcomplex => by simp [hcomplex] at htext
  cases hmulti : a.multiValued with
  | true => simp [relates_present, hmulti]
  | false =>
      rw [relates_comparable hmulti (.text (or_assoc.mp (.inl htext)) x y), single_text htext]
      simp

/-- A text that is compared with regard to case is in a relation to a constant if the characters
are. -/
theorem relates_exact (htext : a.type = .string ∨ a.type = .reference)
    (hexact : a.caseExact = true) :
    relates op (some ⟨.string x, a⟩) (.string y) = true ↔
      a.multiValued = false ∧ exactTexts op x.toList y.toList = true := by
  rw [relates_texts htext, texts, if_pos hexact]

/-- Without regard to case the lower-cased characters are. -/
theorem relates_caseless_iff (htext : a.type = .string ∨ a.type = .reference) :
    relates op (some ⟨.string x, a.caseless⟩) (.string y) = true ↔
      a.multiValued = false ∧
        exactTexts op (Text.lowerCase x.toList) (Text.lowerCase y.toList) = true :=
  relates_texts (a := a.caseless) htext

/-- Equal texts are equal without regard to case. -/
theorem relates_caseless_eq (htext : a.type = .string ∨ a.type = .reference)
    (hexact : a.caseExact = true) (h : relates .eq (some ⟨.string x, a⟩) (.string y) = true) :
    relates .eq (some ⟨.string x, a.caseless⟩) (.string y) = true := by
  obtain ⟨hmulti, h⟩ := (relates_exact htext hexact).mp h
  have hsame : x.toList = y.toList := Std.LawfulEqOrd.eq_of_compare (beq_iff_eq.mp h)
  refine (relates_caseless_iff htext).mpr ⟨hmulti, ?_⟩
  rw [hsame]
  exact beq_iff_eq.mpr Std.ReflOrd.compare_self

/-- A text that starts with a constant does so without regard to case exactly if the constant keeps
its sigmas there. -/
theorem relates_caseless_sw (htext : a.type = .string ∨ a.type = .reference)
    (hexact : a.caseExact = true) (h : relates .sw (some ⟨.string x, a⟩) (.string y) = true) :
    ∃ rest, x.toList = y.toList ++ rest ∧
      (relates .sw (some ⟨.string x, a.caseless⟩) (.string y) = true ↔
        KeepsSigmas [] rest y.toList) := by
  obtain ⟨hmulti, h⟩ := (relates_exact htext hexact).mp h
  obtain ⟨rest, hrest⟩ := List.isPrefixOf_iff_prefix.mp h
  refine ⟨rest, hrest.symm, (relates_caseless_iff htext).trans ?_⟩
  rw [and_iff_right hmulti, ← Text.lowerCase_prefix_iff, hrest]
  exact List.isPrefixOf_iff_prefix

/-- A text that ends with a constant does so without regard to case exactly if the constant keeps
its sigmas there. -/
theorem relates_caseless_ew (htext : a.type = .string ∨ a.type = .reference)
    (hexact : a.caseExact = true) (h : relates .ew (some ⟨.string x, a⟩) (.string y) = true) :
    ∃ front, x.toList = front ++ y.toList ∧
      (relates .ew (some ⟨.string x, a.caseless⟩) (.string y) = true ↔
        KeepsSigmas front.reverse [] y.toList) := by
  obtain ⟨hmulti, h⟩ := (relates_exact htext hexact).mp h
  obtain ⟨front, hfront⟩ := List.isSuffixOf_iff_suffix.mp h
  refine ⟨front, hfront.symm, (relates_caseless_iff htext).trans ?_⟩
  rw [and_iff_right hmulti, ← Text.lowerCase_suffix_iff, hfront]
  exact List.isSuffixOf_iff_suffix

/-- A text that contains a constant does so without regard to case if the constant keeps its sigmas
at some place where the text contains it. -/
theorem relates_caseless_co (htext : a.type = .string ∨ a.type = .reference)
    (hexact : a.caseExact = true) (h : relates .co (some ⟨.string x, a⟩) (.string y) = true) :
    (∃ front rest, x.toList = front ++ y.toList ++ rest) ∧
      ∀ front rest, x.toList = front ++ y.toList ++ rest →
        KeepsSigmas front.reverse rest y.toList →
          relates .co (some ⟨.string x, a.caseless⟩) (.string y) = true := by
  obtain ⟨hmulti, h⟩ := (relates_exact htext hexact).mp h
  obtain ⟨front, rest, hwhole⟩ := Text.occursIn_iff.mp h
  refine ⟨⟨front, rest, hwhole.symm⟩, fun front rest hwhole hkeeps => ?_⟩
  refine (relates_caseless_iff htext).mpr ⟨hmulti, Text.occursIn_iff.mpr ?_⟩
  rw [hwhole]
  exact Text.lowerCase_infix hkeeps

/-- A constant without a capital sigma loses nothing. -/
theorem relates_caseless_of_not_mem (htext : a.type = .string ∨ a.type = .reference)
    (hexact : a.caseExact = true) (hsigma : 'Σ' ∉ y.toList)
    (hop : op = .eq ∨ looksInside op = true)
    (h : relates op (some ⟨.string x, a⟩) (.string y) = true) :
    relates op (some ⟨.string x, a.caseless⟩) (.string y) = true := by
  have hkeeps : ∀ before after, KeepsSigmas before after y.toList := fun _ _ =>
    Text.keepsSigmas_of_not_mem hsigma
  rcases hop with rfl | hop
  · exact relates_caseless_eq htext hexact h
  · cases op with
    | sw =>
        obtain ⟨rest, _, hiff⟩ := relates_caseless_sw htext hexact h
        exact hiff.mpr (hkeeps [] rest)
    | ew =>
        obtain ⟨front, _, hiff⟩ := relates_caseless_ew htext hexact h
        exact hiff.mpr (hkeeps front.reverse [])
    | co =>
        obtain ⟨⟨front, rest, hwhole⟩, hall⟩ := relates_caseless_co htext hexact h
        exact hall front rest hwhole (hkeeps front.reverse rest)
    | and | or | not | eq | ne | gt | ge | lt | le | pr => cases hop

/-- What is equal with regard to case is equal without.  A text that starts or ends with a constant
does so without regard to case exactly if the capital sigmas of the constant end words in the text
where they end words in the constant alone.  Where that holds of some place at which the text
contains the constant, it contains the constant without regard to case.  So nothing is lost if the
constant has no capital sigma. -/
theorem relates_caseless {a : Attribute} (htext : a.type = .string ∨ a.type = .reference)
    (hexact : a.caseExact = true) (x y : String) :
    let exactly op := relates op (some ⟨.string x, a⟩) (.string y) = true
    let loosely op := relates op (some ⟨.string x, a.caseless⟩) (.string y) = true
    (exactly .eq → loosely .eq) ∧
      (exactly .sw → ∃ rest, x.toList = y.toList ++ rest ∧
        (loosely .sw ↔ KeepsSigmas [] rest y.toList)) ∧
      (exactly .ew → ∃ front, x.toList = front ++ y.toList ∧
        (loosely .ew ↔ KeepsSigmas front.reverse [] y.toList)) ∧
      (exactly .co → (∃ front rest, x.toList = front ++ y.toList ++ rest) ∧
        ∀ front rest, x.toList = front ++ y.toList ++ rest →
          KeepsSigmas front.reverse rest y.toList → loosely .co) ∧
      ('Σ' ∉ y.toList → ∀ op, op = .eq ∨ looksInside op = true → exactly op → loosely op) := by
  intro exactly loosely
  refine ⟨?eq, ?sw, ?ew, ?co, ?plain⟩
  case eq => exact relates_caseless_eq htext hexact
  case sw => exact relates_caseless_sw htext hexact
  case ew => exact relates_caseless_ew htext hexact
  case co => exact relates_caseless_co htext hexact
  case plain => exact fun hsigma op hop => relates_caseless_of_not_mem htext hexact hsigma hop

/-- A text with a dotted capital and a final sigma in it contains its second word without regard to
case, since the sigma ends that word there too. -/
theorem relates_caseless_word :
    ∃ a : Attribute, a.type = .string ∧ a.caseExact = true ∧
      relates .co (some ⟨.string "İΣ ΟΔΟΣ 7", a⟩) (.string "ΟΔΟΣ") = true ∧
      KeepsSigmas ['İ', 'Σ', ' '].reverse [' ', '7'] "ΟΔΟΣ".toList ∧
      relates .co (some ⟨.string "İΣ ΟΔΟΣ 7", a.caseless⟩) (.string "ΟΔΟΣ") = true := by
  let a : Attribute := { name := "street", caseExact := true }
  have hexactly : relates .co (some ⟨.string "İΣ ΟΔΟΣ 7", a⟩) (.string "ΟΔΟΣ") = true := by
    decide +kernel
  have hkeeps : KeepsSigmas ['İ', 'Σ', ' '].reverse [' ', '7'] "ΟΔΟΣ".toList := by
    rw [← Text.lowerBetween_eq_lowerCase]
    decide +kernel
  obtain ⟨_, _, _, hco, _⟩ := relates_caseless (a := a) (.inl rfl) rfl "İΣ ΟΔΟΣ 7" "ΟΔΟΣ"
  exact ⟨a, rfl, rfl, hexactly, hkeeps, (hco hexactly).2 ['İ', 'Σ', ' '] [' ', '7'] rfl hkeeps⟩

/-- Without regard to case the text `ΑΣΑ` neither starts with its own first characters nor contains
them, and `ΑΣ` does not end with its own last one. -/
theorem not_sw_own_start :
    let exactly : Attribute := { name := "word", caseExact := true }
    relates .sw (some ⟨.string "ΑΣΑ", exactly⟩) (.string "ΑΣ") = true ∧
      relates .sw (some ⟨.string "ΑΣΑ", exactly.caseless⟩) (.string "ΑΣ") = false ∧
      relates .co (some ⟨.string "ΑΣΑ", exactly⟩) (.string "ΑΣ") = true ∧
      relates .co (some ⟨.string "ΑΣΑ", exactly.caseless⟩) (.string "ΑΣ") = false ∧
      relates .ew (some ⟨.string "ΑΣ", exactly⟩) (.string "Σ") = true ∧
      relates .ew (some ⟨.string "ΑΣ", exactly.caseless⟩) (.string "Σ") = false := by
  decide +kernel

end Comparison

end Scim
