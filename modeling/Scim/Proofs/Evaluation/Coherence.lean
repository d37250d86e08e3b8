import Mathlib.Data.List.Infix
import Scim.Proofs.Evaluation.Collected
import Scim.Schema.Core

/-!
# How the operators fit together

The answers of different operators about one value and one constant fit together, whatever the
type of the attribute (`Comparison.relates_coherent`).

A single value stands to a constant in one of few ways (`single_cases`).  The constant is `null`, or
the two are of one kind that has an order (`Comparable`), or they are truth values, or no operator
holds.  In the second case all operators of order read one ordering, be it of texts, instants or
numbers (`Ordered`), so the laws are those of an ordering.

Operators other than `ne` hold of a value if they hold of something that is spread from it
(`relates_iff`), so laws between them need only be shown for single values.

Nothing is equal to `null`, but it is no text.  That is the only case in which `eq` holds and `sw`
and `ew` do not (`not_sw_of_absent`).
-/

namespace Scim

open Scim.Filter (Constant Operator)
open Scim.Path (spread)

theorem Text.occursIn_iff {part whole : List Char} :
    occursIn part whole = true ↔ part <:+: whole := by
  induction whole with
  | nil => rw [occursIn, List.isEmpty_iff, List.infix_nil]
  | cons c rest ih =>
      rw [occursIn, Bool.or_eq_true, List.isPrefixOf_iff_prefix, ih, List.infix_cons_iff]

namespace Comparison

variable {op op' op'' : Operator} {a : Attribute} {v w : Json} {c : Constant} {x y : String}
  {f : Operator → Bool}

/-! ## Orderings -/

/-- The operators that do not look inside of texts all read one ordering. -/
def Ordered (f : Operator → Bool) : Prop :=
  ∃ ordering, ∀ op, looksInside op = false → f op = holds op ordering

namespace Ordered

theorem ge (h : Ordered f) : f .ge = (f .gt || f .eq) := by
  obtain ⟨ordering, h⟩ := h
  rw [h .ge rfl, h .gt rfl, h .eq rfl]
  cases ordering <;> rfl

theorem le (h : Ordered f) : f .le = (f .lt || f .eq) := by
  obtain ⟨ordering, h⟩ := h
  rw [h .le rfl, h .lt rfl, h .eq rfl]
  cases ordering <;> rfl

theorem ne (h : Ordered f) : f .ne = !f .eq := by
  obtain ⟨ordering, h⟩ := h
  rw [h .ne rfl, h .eq rfl]
  rfl

theorem existsUnique (h : Ordered f) : ∃! op, (op = .lt ∨ op = .eq ∨ op = .gt) ∧ f op = true := by
  obtain ⟨ordering, h⟩ := h
  have hlt := h .lt rfl
  have heq := h .eq rfl
  have hgt := h .gt rfl
  cases ordering with
  | lt =>
      refine ⟨.lt, ⟨.inl rfl, hlt⟩, ?_⟩
      rintro op ⟨rfl | rfl | rfl, htrue⟩
      · rfl
      · exact absurd (heq.symm.trans htrue) (by decide)
      · exact absurd (hgt.symm.trans htrue) (by decide)
  | eq =>
      refine ⟨.eq, ⟨.inr (.inl rfl), heq⟩, ?_⟩
      rintro op ⟨rfl | rfl | rfl, htrue⟩
      · exact absurd (hlt.symm.trans htrue) (by decide)
      · rfl
      · exact absurd (hgt.symm.trans htrue) (by decide)
  | gt =>
      refine ⟨.gt, ⟨.inr (.inr rfl), hgt⟩, ?_⟩
      rintro op ⟨rfl | rfl | rfl, htrue⟩
      · exact absurd (hlt.symm.trans htrue) (by decide)
      · exact absurd (heq.symm.trans htrue) (by decide)
      · rfl

end Ordered

theorem Ordered.congr {g : Operator → Bool} (h : Ordered g)
    (heq : ∀ op, looksInside op = false → f op = g op) : Ordered f := by
  obtain ⟨ordering, h⟩ := h
  exact ⟨ordering, fun op hop => (heq op hop).trans (h op hop)⟩

theorem exactTexts_eq (hop : looksInside op = false) (s t : List Char) :
    exactTexts op s t = holds op (compare s t) := by
  cases op with
  | sw | ew | co => cases hop
  | and | or | not | eq | ne | gt | ge | lt | le | pr => rfl

theorem ordered_texts (caseExact : Bool) (x y : String) : Ordered (texts · caseExact x y) := by
  cases caseExact
  · exact ⟨_, fun op hop => exactTexts_eq hop _ _⟩
  · exact ⟨_, fun op hop => exactTexts_eq hop _ _⟩

/-- Two date-times are ordered as instants, or else as texts. -/
theorem ordered_dateTimes (caseExact : Bool) (x y : String) :
    Ordered (dateTimes · caseExact x y) := by
  cases hx : Instant.ofStrict? x.toList with
  | none =>
      refine (ordered_texts caseExact x y).congr fun op hop => ?_
      simp only [dateTimes, hop, hx, Bool.false_eq_true, if_false]
  | some i =>
      cases hy : Instant.ofStrict? y.toList with
      | none =>
          refine (ordered_texts caseExact x y).congr fun op hop => ?_
          simp only [dateTimes, hop, hx, hy, Bool.false_eq_true, if_false]
      | some j =>
          refine ⟨i.compare j, fun op hop => ?_⟩
          simp only [dateTimes, hop, hx, hy, Bool.false_eq_true, if_false]

/-! ## Single values -/

/-- A value and a constant of one kind, that of the attribute, which has an order. -/
inductive Comparable (a : Attribute) : Json → Constant → Prop where
  | text (htype : a.type = .string ∨ a.type = .reference ∨ a.type = .dateTime) (x y : String) :
      Comparable a (.string x) (.string y)
  | integer {n : Json.Number} {i : Int} (htype : a.type = .integer) (hn : n.int64? = some i)
      (j : Int) : Comparable a (.number n) (.integer j)
  | decimal {n : Json.Number} {d : Decimal} (htype : a.type = .decimal) (hn : decimal? n = some d)
      (e : Decimal) : Comparable a (.number n) (.decimal e)

theorem single_text (htype : a.type = .string ∨ a.type = .reference) :
    single op a (.string x) (.string y) = texts op a.caseExact x y := by
  rcases htype with htype | htype
  · simp only [single, htype, reduceCtorEq, if_false]
  · simp only [single, htype, reduceCtorEq, if_false]

theorem Comparable.ordered (h : Comparable a v c) : Ordered (single · a v c) := by
  cases h with
  | text htype x y =>
      rcases or_assoc.mpr htype with htext | htime
      · exact (ordered_texts a.caseExact x y).congr fun _ _ => single_text htext
      · refine (ordered_dateTimes a.caseExact x y).congr fun op _ => ?_
        simp only [single, htime, reduceCtorEq, if_false]
  | @integer n i htype hn j =>
      refine ⟨compare i j, fun op _ => ?_⟩
      simp only [single, htype, hn, reduceCtorEq, if_false, Option.any_some]
  | @decimal n d htype hn e =>
      refine ⟨d.compare e, fun op _ => ?_⟩
      simp only [single, htype, hn, reduceCtorEq, if_false, Option.any_some]

/-- How a single value can stand to a constant. -/
theorem single_cases (a : Attribute) (v : Json) (c : Constant) :
    c = .null ∨ Comparable a v c ∨
      (a.type = .boolean ∧ ∃ p q, ∀ op, single op a v c = truths op p q) ∨
      ∀ op, single op a v c = false := by
  by_cases hc : c = .null
  · exact .inl hc
  refine .inr ?_
  by_cases hcomparable : Comparable a v c
  · exact .inl hcomparable
  refine .inr ?_
  by_cases htruth : ∃ p q, a.type = .boolean ∧ v = .bool p ∧ c = .boolean q
  · obtain ⟨p, q, htype, rfl, rfl⟩ := htruth
    refine .inl ⟨htype, p, q, fun op => ?_⟩
    simp only [single, htype, reduceCtorEq, if_false]
  · refine .inr fun op => ?_
    rw [single.eq_def, if_neg hc]
    split
    case h_1 x y htype => exact absurd (.text (.inl htype) x y) hcomparable
    case h_2 x y htype => exact absurd (.text (.inr (.inl htype)) x y) hcomparable
    case h_3 x y htype => exact absurd (.text (.inr (.inr htype)) x y) hcomparable
    case h_4 p q htype => exact absurd ⟨p, q, htype, rfl, rfl⟩ htruth
    case h_5 n j htype =>
        cases hn : n.int64? with
        | none => rfl
        | some i => exact absurd (.integer htype hn j) hcomparable
    case h_6 n e htype =>
        cases hn : decimal? n with
        | none => rfl
        | some d => exact absurd (.decimal htype hn e) hcomparable
    case h_7 => rfl

theorem single_null : single op a v .null = decide (op = .ne) := by
  rw [single.eq_def, if_pos rfl]

theorem not_single_eq_ne : ¬ (single .eq a v c = true ∧ single .ne a v c = true) := by
  rintro ⟨heq, hne⟩
  rcases single_cases a v c with rfl | hcomparable | ⟨_, p, q, htruths⟩ | hnone
  · rw [single_null] at heq
    cases heq
  · have hnot := hcomparable.ordered.ne
    rw [heq, hne] at hnot
    cases hnot
  · rw [htruths] at heq hne
    cases p <;> cases q <;> simp [truths] at heq hne
  · rw [hnone] at heq
    cases heq

/-- The operators that include equality, for single values that are no truth values. -/
theorem single_or (htype : a.type ≠ .boolean) :
    single .ge a v c = (single .gt a v c || single .eq a v c) ∧
      single .le a v c = (single .lt a v c || single .eq a v c) := by
  rcases single_cases a v c with rfl | hcomparable | ⟨hboolean, _⟩ | hnone
  · simp [single_null]
  · exact ⟨hcomparable.ordered.ge, hcomparable.ordered.le⟩
  · exact absurd hboolean htype
  · simp [hnone]

/-! ## Texts -/

theorem exactTexts_co {s t : List Char}
    (h : exactTexts .sw s t = true ∨ exactTexts .ew s t = true) : exactTexts .co s t = true := by
  refine Text.occursIn_iff.mpr ?_
  rcases h with h | h
  · exact (List.isPrefixOf_iff_prefix.mp h).isInfix
  · exact (List.isSuffixOf_iff_suffix.mp h).isInfix

theorem exactTexts_of_eq {s t : List Char} (h : exactTexts .eq s t = true) :
    exactTexts .sw s t = true ∧ exactTexts .ew s t = true := by
  obtain rfl : s = t := Std.LawfulEqOrd.eq_of_compare (beq_iff_eq.mp h)
  exact ⟨List.isPrefixOf_iff_prefix.mpr List.prefix_rfl,
    List.isSuffixOf_iff_suffix.mpr List.suffix_rfl⟩

/-- What the texts show of two operators, the values of a text attribute show too. -/
theorem single_imp (htext : a.type = .string ∨ a.type = .reference) (hop : op ≠ .ne)
    (himp : ∀ s t, exactTexts op s t = true → exactTexts op' s t = true)
    (h : single op a v c = true) : single op' a v c = true := by
  have htexts : ∀ {caseExact : Bool} {x y : String}, texts op caseExact x y = true →
      texts op' caseExact x y = true := by
    intro caseExact x y
    cases caseExact
    · exact himp _ _
    · exact himp _ _
  rcases single_cases a v c with rfl | hcomparable | ⟨hboolean, _⟩ | hnone
  · rw [single_null] at h
    exact absurd (of_decide_eq_true h) hop
  · cases hcomparable with
    | text _ x y =>
        rw [single_text htext] at h ⊢
        exact htexts h
    | integer htype | decimal htype => simp [htype] at htext
  · simp [hboolean] at htext
  · rw [hnone] at h
    cases h

/-! ## All values -/

theorem relates_present (hv : v ≠ .null) : relates op (some ⟨v, a⟩) c =
    if a.multiValued || a.isComplex then false else present op a v c := by
  cases v with
  | null => exact absurd rfl hv
  | bool | number | string | array | object => rfl

/-- An operator holds of a value if it holds of something that is spread from it, unless nothing is
asked to be equal to `null`. -/
theorem relates_iff (hop : op ≠ .ne) (hnull : v = .null → op = .eq → c ≠ .null) :
    relates op (some ⟨v, a⟩) c = true ↔
      (a.multiValued = false ∧ a.isComplex = false) ∧
        ∃ w ∈ spread v, single op a w c = true := by
  by_cases hsimple : a.multiValued = false ∧ a.isComplex = false
  · rw [← any_single_spread hsimple.1 hsimple.2 hop hnull, List.any_eq_true]
    exact (and_iff_right hsimple).symm
  · have hfalse : relates op (some ⟨v, a⟩) c = false := by
      by_cases hv : v = .null
      · subst hv
        exact absent_eq_false hop (hnull rfl)
      · have hor : (a.multiValued || a.isComplex) = true := by
          rw [← Bool.or_eq_false_iff, Bool.not_eq_false] at hsimple
          exact hsimple
        rw [relates_present hv, if_pos hor]
    rw [hfalse]
    exact iff_of_false Bool.false_ne_true fun h => hsimple h.1

/-- What the texts show of an operator that looks inside of them, the values of a text attribute
show too. -/
theorem relates_inside (htext : a.type = .string ∨ a.type = .reference) (hop : op ≠ .ne)
    (hinside : looksInside op' = true) (hnull : v = .null → op = .eq → c ≠ .null)
    (himp : ∀ s t, exactTexts op s t = true → exactTexts op' s t = true)
    (h : relates op (some ⟨v, a⟩) c = true) : relates op' (some ⟨v, a⟩) c = true := by
  have hne : op' ≠ .ne := by
    rintro rfl
    cases hinside
  have heq : op' ≠ .eq := by
    rintro rfl
    cases hinside
  obtain ⟨hsimple, w, hw, htrue⟩ := (relates_iff hop hnull).mp h
  exact (relates_iff hne fun _ h => absurd h heq).mpr
    ⟨hsimple, w, hw, single_imp htext hop himp htrue⟩

theorem relates_or (hop : op ≠ .ne) (hop' : op' ≠ .ne) (hop'' : op'' ≠ .ne) (hv : v ≠ .null)
    (hor : ∀ w, single op a w c = (single op' a w c || single op'' a w c)) :
    relates op (some ⟨v, a⟩) c = true ↔
      relates op' (some ⟨v, a⟩) c = true ∨ relates op'' (some ⟨v, a⟩) c = true := by
  have hnull : ∀ {op : Operator}, v = .null → op = .eq → c ≠ .null := fun h => absurd h hv
  rw [relates_iff hop hnull, relates_iff hop' hnull, relates_iff hop'' hnull, ← and_or_left]
  simp only [hor, Bool.or_eq_true, and_or_left, exists_or]

theorem not_present_eq_ne : ¬ (present .eq a v c = true ∧ present .ne a v c = true) := by
  cases v with
  | array items =>
      rintro ⟨heq, hne⟩
      have hnot : present .ne a (.array items) c = !present .eq a (.array items) c := rfl
      rw [heq, hne] at hnot
      cases hnot
  | null | bool | number | string | object => exact not_single_eq_ne

theorem not_relates_eq_ne (found : Option Described) (c : Constant) :
    ¬ (relates .eq found c = true ∧ relates .ne found c = true) := by
  have habsent : ¬ (absent .eq c = true ∧ absent .ne c = true) := by simp [absent]
  cases found with
  | none => exact habsent
  | some found =>
      obtain ⟨v, a⟩ := found
      by_cases hv : v = .null
      · subst hv
        exact habsent
      rw [relates_present hv, relates_present hv]
      split
      · exact fun h => Bool.false_ne_true h.1
      · exact not_present_eq_ne

/-- A comparable value is single. -/
theorem relates_comparable (hmulti : a.multiValued = false) (h : Comparable a v c)
    (op : Operator) : relates op (some ⟨v, a⟩) c = single op a v c := by
  have hsimple : a.isComplex = false := by
    refine decide_eq_false fun hcomplex => ?_
    cases h with
    | text htype | integer htype | decimal htype => simp [hcomplex] at htype
  cases h with
  | text | integer | decimal =>
      rw [relates, hmulti, hsimple]
      rfl

/-- The answers of the operators fit together.  What is equal does not differ.  At least is greater
or equal, and at most is less or equal, of values that are there and no truth values.  A single
value is less than, equal to or greater than a constant with which it can be compared, and differs
from it unless it is equal.  A text starts and ends with a constant that it is equal to, and
contains a constant with which it starts or ends; but nothing, which is equal to `null`, does not
start or end with it. -/
theorem relates_coherent (v : Json) (a : Attribute) (c : Constant) :
    (∀ found, ¬ (relates .eq found c = true ∧ relates .ne found c = true)) ∧
      (v ≠ .null → a.type ≠ .boolean →
        (relates .ge (some ⟨v, a⟩) c = true ↔
          relates .gt (some ⟨v, a⟩) c = true ∨ relates .eq (some ⟨v, a⟩) c = true) ∧
        (relates .le (some ⟨v, a⟩) c = true ↔
          relates .lt (some ⟨v, a⟩) c = true ∨ relates .eq (some ⟨v, a⟩) c = true)) ∧
      (a.multiValued = false → Comparable a v c →
        (∃! op, (op = .lt ∨ op = .eq ∨ op = .gt) ∧ relates op (some ⟨v, a⟩) c = true) ∧
          relates .ne (some ⟨v, a⟩) c = !relates .eq (some ⟨v, a⟩) c) ∧
      (a.type = .string ∨ a.type = .reference →
        (¬ (v = .null ∧ c = .null) → relates .eq (some ⟨v, a⟩) c = true →
          relates .sw (some ⟨v, a⟩) c = true ∧ relates .ew (some ⟨v, a⟩) c = true) ∧
        (relates .sw (some ⟨v, a⟩) c = true ∨ relates .ew (some ⟨v, a⟩) c = true →
          relates .co (some ⟨v, a⟩) c = true)) := by
  refine ⟨fun found => not_relates_eq_ne found c, ?_, ?_, ?_⟩
  · intro hv htype
    constructor
    · exact relates_or (by decide) (by decide) (by decide) hv fun _ => (single_or htype).1
    · exact relates_or (by decide) (by decide) (by decide) hv fun _ => (single_or htype).2
  · intro hmulti hcomparable
    have hordered : Ordered (relates · (some ⟨v, a⟩) c) :=
      hcomparable.ordered.congr fun op _ => relates_comparable hmulti hcomparable op
    exact ⟨hordered.existsUnique, hordered.ne⟩
  · intro htext
    constructor
    · intro hnull heq
      have hnull' : v = .null → Operator.eq = .eq → c ≠ .null := fun hv _ hc => hnull ⟨hv, hc⟩
      constructor
      · exact relates_inside htext (by decide) rfl hnull'
          (fun _ _ h => (exactTexts_of_eq h).1) heq
      · exact relates_inside htext (by decide) rfl hnull'
          (fun _ _ h => (exactTexts_of_eq h).2) heq
    · have hnull {op : Operator} (hne : op ≠ .eq) : v = .null → op = .eq → c ≠ .null :=
        fun _ heq => absurd heq hne
      rintro (hsw | hew)
      · exact relates_inside htext (by decide) rfl (hnull (by decide))
          (fun _ _ h => exactTexts_co (.inl h)) hsw
      · exact relates_inside htext (by decide) rfl (hnull (by decide))
          (fun _ _ h => exactTexts_co (.inr h)) hew

/-- A title is equal to itself in another case, so the other operators hold too, except `ne`. -/
theorem relates_coherent_title :
    ∃ title, Schema.user.root.sub? "title" = some title ∧ title.type = .string ∧
      Comparable title (.string "Chief") (.string "chief") ∧
      relates .eq (some ⟨.string "Chief", title⟩) (.string "chief") = true ∧
      relates .ne (some ⟨.string "Chief", title⟩) (.string "chief") = false ∧
      relates .ge (some ⟨.string "Chief", title⟩) (.string "chief") = true ∧
      relates .sw (some ⟨.string "Chief", title⟩) (.string "chief") = true ∧
      relates .co (some ⟨.string "Chief", title⟩) (.string "chief") = true := by
  obtain ⟨title, htitle, htype, hmulti, heq⟩ : ∃ title, Schema.user.root.sub? "title" = some title ∧
      title.type = .string ∧ title.multiValued = false ∧
      relates .eq (some ⟨.string "Chief", title⟩) (.string "chief") = true := by
    refine ⟨_, rfl, rfl, rfl, ?_⟩
    decide +kernel
  have hcomparable : Comparable title (.string "Chief") (.string "chief") := .text (.inl htype) _ _
  obtain ⟨_, horder, hscalar, htext⟩ := relates_coherent (.string "Chief") title (.string "chief")
  obtain ⟨hge, _⟩ := horder nofun (by rw [htype]; decide)
  obtain ⟨_, hne⟩ := hscalar hmulti hcomparable
  obtain ⟨hstart, hinside⟩ := htext (.inl htype)
  obtain ⟨hsw, _⟩ := hstart nofun heq
  refine ⟨title, htitle, htype, hcomparable, heq, ?_, hge.mpr (.inr heq), hsw, hinside (.inl hsw)⟩
  rw [hne, heq]
  rfl

/-- A user without a title has a title that is equal to `null` but does not start with it. -/
theorem not_sw_of_absent :
    ¬ ∀ (v : Json) (a : Attribute) (c : Constant), a.type = .string ∨ a.type = .reference →
      relates .eq (some ⟨v, a⟩) c = true →
      relates .sw (some ⟨v, a⟩) c = true ∧ relates .ew (some ⟨v, a⟩) c = true := by
  intro h
  obtain ⟨title, _, htype⟩ : ∃ title, Schema.user.root.sub? "title" = some title ∧
      title.type = .string := ⟨_, rfl, rfl⟩
  have hsw : relates .sw (some ⟨.null, title⟩) .null = false := rfl
  have heq : relates .eq (some ⟨.null, title⟩) .null = true := rfl
  rw [(h .null title .null (.inl htype) heq).1] at hsw
  cases hsw

end Comparison

end Scim
