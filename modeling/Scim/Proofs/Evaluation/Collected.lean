import Scim.Evaluation.Truth
import Scim.Path.Descent
import Scim.Proofs.Filter.Splicing

/-!
# Filters and collected values

The name of a sub-attribute means one value in one element of an array (`Attribute.within`) and
the array of its values in all elements together (`Attribute.across`).  A test of collected values
that is no `ne` and not against `null` is true if the same test is true of one element
(`Tree.eval_across_test`).

Tests keep this when they are joined by `or` (`Tree.eval_across_iff`).  When they are joined by
`and` too, what is true of one element is true of the collected values (`Tree.eval_across`), but
then the tests can be true of different elements.  For a single element there is no difference,
whatever joins the tests (`Tree.eval_across_singleton`).
-/

namespace Scim

open Scim.Path (spread)
open Scim.Filter (Constant Operator Token Tree)

/-! ## The meaning of sub-attributes -/

namespace Attribute

/-- The value of the attribute in an element, `null` if it is no object. -/
def valueIn (s : Attribute) : Json → Json
  | .object members => Members.valueOf members s.name
  | _ => .null

/-- The values of the attribute in all elements, without `null` and with arrays spread. -/
def valuesIn (s : Attribute) (items : List Json) : List Json :=
  items.flatMap fun v => spread (s.valueIn v)

/-- What the names of sub-attributes mean in one element. -/
def within (a : Attribute) (v : Json) : Tree.Meaning :=
  fun name => (a.sub? name).map fun s => ⟨s.valueIn v, s⟩

/-- What the names of sub-attributes mean in all elements together. -/
def across (a : Attribute) (items : List Json) : Tree.Meaning :=
  fun name => (a.sub? name).map fun s => ⟨.array (s.valuesIn items), s⟩

/-- A name of a single-valued simple sub-attribute. -/
def NamesSimple (a : Attribute) (name : String) : Prop :=
  ∃ s, a.sub? name = some s ∧ s.multiValued = false ∧ s.isComplex = false

theorem element_of_single {s : Attribute} (h : s.multiValued = false) : s.element = s := by
  rw [element, h]
  rfl

end Attribute

/-! ## Tests -/

variable {a s : Attribute} {items : List Json} {v w : Json} {op : Operator} {c : Constant}

/-- What is spread from a value is assigned if the value is. -/
theorem Attribute.any_isAssigned_spread (h : s.multiValued = false) :
    (spread w).any s.isAssigned = s.isAssigned w := by
  cases w with
  | array vs =>
      rw [isAssigned, isAnyAssigned_eq_any, element_of_single h]
      rfl
  | null => rfl
  | bool | number | string | object => exact Bool.or_false _

theorem Attribute.isAssigned_valuesIn (h : s.multiValued = false) :
    s.isAssigned (.array (s.valuesIn items)) = items.any fun v => s.isAssigned (s.valueIn v) := by
  rw [isAssigned, isAnyAssigned_eq_any, element_of_single h, valuesIn, List.any_flatMap]
  congr 1
  funext v
  exact any_isAssigned_spread h

namespace Comparison

/-- Nothing is only equal to `null` and only differs from other constants. -/
theorem absent_eq_false (hop : op ≠ .ne) (hc : op = .eq → c ≠ .null) : absent op c = false := by
  cases op <;> simp_all [absent]

/-- What is spread from a value is in a relation if the value is, unless nothing is asked to be
equal to `null`. -/
theorem any_single_spread (hmulti : s.multiValued = false) (hsimple : s.isComplex = false)
    (hop : op ≠ .ne) (hc : w = .null → op = .eq → c ≠ .null) :
    (spread w).any (fun v => single op s v c) = relates op (some ⟨w, s⟩) c := by
  cases w with
  | array vs =>
      rw [relates, hmulti, hsimple]
      show _ = present op s (.array vs) c
      rw [present, if_neg hop]
      rfl
  | null => exact (absent_eq_false hop (hc rfl)).symm
  | bool | number | string | object =>
      rw [relates, hmulti, hsimple]
      exact Bool.or_false _

theorem relates_valuesIn (hmulti : s.multiValued = false) (hsimple : s.isComplex = false)
    (hop : op ≠ .ne) (hc : c ≠ .null) :
    relates op (some ⟨.array (s.valuesIn items), s⟩) c =
      items.any fun v => relates op (some ⟨s.valueIn v, s⟩) c := by
  rw [relates, hmulti, hsimple]
  show present op s (.array (s.valuesIn items)) c = _
  rw [present, if_neg hop, Attribute.valuesIn, List.any_flatMap]
  congr 1
  funext v
  exact any_single_spread hmulti hsimple hop fun _ _ => hc

/-- Collected values differ from a constant if none of them is equal to it. -/
theorem relates_ne_valuesIn (hmulti : s.multiValued = false) (hsimple : s.isComplex = false)
    (hc : c ≠ .null) :
    relates .ne (some ⟨.array (s.valuesIn items), s⟩) c =
      !items.any fun v => relates .eq (some ⟨s.valueIn v, s⟩) c := by
  rw [← relates_valuesIn hmulti hsimple (by decide) hc, relates, relates, hmulti, hsimple]
  rfl

end Comparison

namespace Filter.Tree

variable {t : Token} {tree l r : Tree} {name : String}

/-! ## Truth of joined tests -/

/-- A tree of tests that are no `ne` and not against `null`, joined by some operators only. -/
inductive Seeks (joins : Operator → Prop) : Tree → Prop where
  | nil : Seeks joins .nil
  | operand {t : Token} {l r : Tree} (ht : t.operator? = none) : Seeks joins (.node t l r)
  | test {t : Token} {l r : Tree} {op : Operator} (ht : t.operator? = some op)
      (hop : op.isLogical = false) (hne : op ≠ .ne) (hnull : r.constant? ≠ some .null) :
      Seeks joins (.node t l r)
  | join {t : Token} {l r : Tree} {op : Operator} (ht : t.operator? = some op)
      (hop : op.isLogical = true) (hjoins : joins op) (hl : l.Seeks joins) (hr : r.Seeks joins) :
      Seeks joins (.node t l r)

/-- All paths of the tree name single-valued simple sub-attributes. -/
abbrev Over (a : Attribute) (tree : Tree) : Prop :=
  tree.Forall fun t => t.kind = .path → a.NamesSimple t.text

/-- What holds of every token holds of the token of a path. -/
theorem exists_of_path? {p : Token → Prop} (h : tree.Forall p) (hpath : tree.path? = some name) :
    ∃ t, p t ∧ t.kind = .path ∧ t.text = name := by
  cases tree with
  | nil => cases hpath
  | node t _ _ =>
      rw [path?] at hpath
      split at hpath
      case isTrue hkind =>
          cases hpath
          exact ⟨t, h.1, hkind, rfl⟩
      case isFalse => cases hpath

/-- The truth of a tree depends on what its own paths mean. -/
theorem eval_congr {meaning meaning' : Meaning}
    (h : tree.Forall fun t => t.kind = .path → meaning t.text = meaning' t.text) :
    tree.eval meaning = tree.eval meaning' := by
  induction tree with
  | nil => rfl
  | node t l r ihl ihr =>
      obtain ⟨_, hl, hr⟩ := h
      rw [eval, eval, ihl hl, ihr hr]
      cases hpath : l.path? with
      | none => rfl
      | some path =>
          obtain ⟨u, hu, hkind, rfl⟩ := exists_of_path? hl hpath
          rw [Option.any_some, Option.any_some, isPresent, isPresent, hu hkind]
          cases r.constant? with
          | none => rfl
          | some c => simp only [hu hkind]

/-- The truth of a comparison. -/
theorem eval_comparison {meaning : Meaning} (ht : t.operator? = some op)
    (hlogical : op.isLogical = false) (hpr : op ≠ .pr) :
    (node t l r).eval meaning =
      l.path?.any fun path => r.constant?.any (Comparison.relates op (meaning path)) := by
  rw [eval, ht]
  cases op with
  | and | or | not => cases hlogical
  | pr => exact absurd rfl hpr
  | eq | ne | sw | ew | co | gt | ge | lt | le => cases l.path? <;> cases r.constant? <;> rfl

/-- A test of collected values is true if it is true of one element. -/
theorem eval_across_test (ht : t.operator? = some op) (hlogical : op.isLogical = false)
    (hne : op ≠ .ne) (hnull : r.constant? ≠ some .null) (hl : l.Over a) :
    (node t l r).eval (a.across items) = items.any fun v => (node t l r).eval (a.within v) := by
  cases hpath : l.path? with
  | none =>
      have hfalse : ∀ meaning, (node t l r).eval meaning = false := by
        intro meaning
        rw [eval, ht, hpath]
        cases op with
        | and | or | not => cases hlogical
        | pr | eq | ne | sw | ew | co | gt | ge | lt | le => rfl
      rw [hfalse]
      simp [hfalse]
  | some path =>
      obtain ⟨u, hu, hkind, rfl⟩ := exists_of_path? hl hpath
      obtain ⟨s, hs, hmulti, hsimple⟩ := hu hkind
      have hacross : a.across items u.text = some ⟨.array (s.valuesIn items), s⟩ := by
        rw [Attribute.across, hs]
        rfl
      have hwithin : ∀ v, a.within v u.text = some ⟨s.valueIn v, s⟩ := by
        intro v
        rw [Attribute.within, hs]
        rfl
      by_cases hpr : op = .pr
      · subst hpr
        have hpresent : ∀ meaning, (node t l r).eval meaning = isPresent meaning u.text := by
          intro meaning
          rw [eval, ht, hpath]
          rfl
        simp only [hpresent, isPresent, hacross, hwithin, Option.any_some]
        exact Attribute.isAssigned_valuesIn hmulti
      · simp only [eval_comparison ht hlogical hpr, hpath, Option.any_some, hacross, hwithin]
        cases hconstant : r.constant? with
        | none => simp
        | some c =>
            have hc : c ≠ .null := fun h => hnull (h ▸ hconstant)
            simp only [Option.any_some]
            exact Comparison.relates_valuesIn hmulti hsimple hne hc

/-- Tests joined by `or` are true of collected values if they are true of one element. -/
theorem eval_across_iff (hover : tree.Over a) (h : tree.Seeks (· = .or)) :
    tree.eval (a.across items) = true ↔ ∃ v ∈ items, tree.eval (a.within v) = true := by
  induction h with
  | nil => simp [eval]
  | operand ht => simp [eval, ht]
  | test ht hop hne hnull =>
      rw [eval_across_test ht hop hne hnull hover.2.1, List.any_eq_true]
  | join ht hop hjoins hl hr ihl ihr =>
      subst hjoins
      simp only [eval, ht, Bool.and_eq_true, Bool.or_eq_true, ihl hover.2.1, ihr hover.2.2]
      constructor
      · rintro ⟨hnil, ⟨v, hv, hl⟩ | ⟨v, hv, hr⟩⟩
        · exact ⟨v, hv, hnil, Or.inl hl⟩
        · exact ⟨v, hv, hnil, Or.inr hr⟩
      · rintro ⟨v, hv, hnil, hl | hr⟩
        · exact ⟨hnil, Or.inl ⟨v, hv, hl⟩⟩
        · exact ⟨hnil, Or.inr ⟨v, hv, hr⟩⟩

/-- Tests joined by `and` and `or` are true of collected values if they are true of one element. -/
theorem eval_across (hover : tree.Over a) (h : tree.Seeks (· ≠ .not)) (hv : v ∈ items)
    (htrue : tree.eval (a.within v) = true) : tree.eval (a.across items) = true := by
  induction h with
  | nil => cases htrue
  | operand ht => simp [eval, ht] at htrue
  | test ht hop hne hnull =>
      rw [eval_across_test ht hop hne hnull hover.2.1, List.any_eq_true]
      exact ⟨v, hv, htrue⟩
  | @join _ _ _ op ht hop hnot hl hr ihl ihr =>
      cases op with
      | and =>
          simp only [eval, ht, Bool.and_eq_true] at htrue ⊢
          exact ⟨⟨htrue.1.1, ihl hover.2.1 htrue.1.2⟩, ihr hover.2.2 htrue.2⟩
      | or =>
          simp only [eval, ht, Bool.and_eq_true, Bool.or_eq_true] at htrue ⊢
          exact ⟨htrue.1, htrue.2.imp (ihl hover.2.1) (ihr hover.2.2)⟩
      | not => exact absurd rfl hnot
      | pr | eq | ne | sw | ew | co | gt | ge | lt | le => cases hop

/-- Tests are true of the collected values of one element if they are true of the element. -/
theorem eval_across_singleton (hover : tree.Over a) (h : tree.Seeks fun _ => True) :
    tree.eval (a.across [v]) = tree.eval (a.within v) := by
  induction h with
  | nil => rfl
  | operand ht => rw [eval, eval, ht]
  | test ht hop hne hnull =>
      rw [eval_across_test ht hop hne hnull hover.2.1]
      exact Bool.or_false _
  | @join _ _ _ op ht hop _ hl hr ihl ihr =>
      cases op with
      | and | or | not => rw [eval, eval, ht, ihl hover.2.1, ihr hover.2.2]
      | pr | eq | ne | sw | ew | co | gt | ge | lt | le => cases hop

end Filter.Tree

end Scim
