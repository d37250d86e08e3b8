import Scim.Filter.Parser

/-!
# The grammar of filters

`Derives level brackets ts tree` says that the tokens `ts` are a filter and that `tree` is the
tree that the grammar assigns to them.  There are three levels.

* A *unit* is a comparison, a presence test, `not` before a unit, an expression in parentheses, or
  a path with an expression in brackets.
* A *conjunction* is one unit or several with `and` between them.
* An *expression* is one conjunction or several with `or` between them.

The rules for `and` and `or` recurse on the left, so operands of one level are grouped from the
left.  `brackets` tells whether a path may have brackets; inside of brackets it may not.  The tree
of a bracket has the outer path in front of every path.

`Derives.splice` takes the brackets away: a derivation with brackets becomes a derivation without
them, of the spliced tokens and of the same tree.  `Derives.checkOperands` says that the tree of a
derivation passes the check of operands.
-/

namespace Scim.Filter

/-! ## Terminals -/

/-- A token of an operator, with the kind that the operator has. -/
structure Token.IsOperator (t : Token) (op : Operator) : Prop where
  /-- The operator is among the details. -/
  operator : t.operator? = some op
  /-- The kind tells logical operators from relational ones. -/
  kind : t.kind = if op.isLogical then .logical else .relational

theorem Token.isOperator_ofOperator (text : String) (op : Operator) :
    (Token.ofOperator text op).IsOperator op := ⟨rfl, rfl⟩

theorem Token.IsOperator.kind_cases {t : Token} {op : Operator} (h : t.IsOperator op) :
    t.kind = .relational ∨ t.kind = .logical := by
  rw [h.kind]
  cases op.isLogical with
  | false => exact Or.inl rfl
  | true => exact Or.inr rfl

theorem Token.IsOperator.kind_ne {t : Token} {op : Operator} {k : Token.Kind}
    (h : t.IsOperator op) (hk : k ≠ .relational ∧ k ≠ .logical := by decide) : t.kind ≠ k := by
  intro hsame
  rcases h.kind_cases with hrel | hlog
  · exact hk.1 (hsame.symm.trans hrel)
  · exact hk.2 (hsame.symm.trans hlog)

/-! ## Paths below an outer path -/

/-- The token with an outer path in front of it, if it is a path. -/
def Token.under (outer : String) (t : Token) : Token :=
  if t.kind = .path then .path (outer ++ "." ++ t.text) else t

/-- The tree with an outer path in front of every path. -/
def Tree.under (outer : String) : Tree → Tree
  | .nil => .nil
  | .node t l r => .node (t.under outer) (l.under outer) (r.under outer)

section

variable {outer : String} {t : Token}

theorem Token.under_of_path (h : t.kind = .path) :
    t.under outer = .path (outer ++ "." ++ t.text) := if_pos h

theorem Token.under_of_ne (h : t.kind ≠ .path) : t.under outer = t := if_neg h

@[simp] theorem Token.kind_under : (t.under outer).kind = t.kind := by
  by_cases h : t.kind = .path
  · rw [Token.under_of_path h, h]
    rfl
  · rw [Token.under_of_ne h]

theorem Token.IsOperator.under {op : Operator} (h : t.IsOperator op) : t.under outer = t :=
  Token.under_of_ne h.kind_ne

@[simp] theorem Token.under_parenthesis (isOpen : Bool) :
    (Token.parenthesis isOpen).under outer = .parenthesis isOpen := rfl

/-- Inside of brackets splicing fails on nested brackets and on nothing else. -/
theorem spliceInner_of_ne (h : t.kind ≠ .nestedPath) :
    spliceInner outer t = .ok (t.under outer) := by
  by_cases hp : t.kind = .path
  · rw [Token.under_of_path hp]
    simp only [spliceInner, hp]
  · rw [Token.under_of_ne hp]
    unfold spliceInner
    split
    · contradiction
    · contradiction
    · rfl

end

theorem mapM_spliceInner {outer : String} {ts : List Token}
    (h : ∀ t ∈ ts, t.kind ≠ .nestedPath) :
    ts.mapM (spliceInner outer) = .ok (ts.map (Token.under outer)) := by
  induction ts with
  | nil => rfl
  | cons t rest ih =>
      have ht : spliceInner outer t = .ok (t.under outer) :=
        spliceInner_of_ne (h t (List.mem_cons_self ..))
      have hrest := ih fun u hu => h u (List.mem_cons_of_mem _ hu)
      rw [List.mapM_cons, ht, hrest]
      rfl

/-! ## Splicing -/

/-- Splicing leaves tokens without brackets alone. -/
theorem splice_of_ne {ts : List Token} (h : ∀ t ∈ ts, t.kind ≠ .nestedPath) :
    splice ts = .ok ts := by
  induction ts with
  | nil => rfl
  | cons t rest ih =>
      have ht : spliceToken t = .ok [t] := if_neg (h t (List.mem_cons_self ..))
      rw [splice, ht, ih fun u hu => h u (List.mem_cons_of_mem _ hu)]
      rfl

theorem splice_cons {t : Token} {front ts us : List Token} (ht : spliceToken t = .ok front)
    (hts : splice ts = .ok us) : splice (t :: ts) = .ok (front ++ us) := by
  rw [splice, ht, hts]
  rfl

theorem splice_append {ts us ts' us' : List Token} (hts : splice ts = .ok ts')
    (hus : splice us = .ok us') : splice (ts ++ us) = .ok (ts' ++ us') := by
  induction ts generalizing ts' with
  | nil =>
      cases hts
      exact hus
  | cons t rest ih =>
      rw [splice] at hts
      cases ht : spliceToken t with
      | error e =>
          rw [ht] at hts
          cases hts
      | ok front =>
          cases hrest : splice rest with
          | error e =>
              rw [ht, hrest] at hts
              cases hts
          | ok back =>
              rw [ht, hrest] at hts
              cases hts
              rw [List.append_assoc]
              exact splice_cons ht (ih hrest)

/-- A bracket is spliced into a group. -/
theorem spliceToken_bracket {t : Token} {ts : List Token} (hk : t.kind = .nestedPath)
    (hd : t.detail = .nested ts) (h : ∀ u ∈ ts, u.kind ≠ .nestedPath) :
    spliceToken t =
      .ok (.parenthesis true :: ts.map (Token.under t.text) ++ [.parenthesis false]) := by
  rw [spliceToken, if_pos hk, hd]
  show (ts.mapM (spliceInner t.text) >>= fun inner =>
    Except.ok (.parenthesis true :: inner ++ [.parenthesis false])) = _
  rw [mapM_spliceInner h]
  rfl

/-! ## Derivations -/

/-- The levels of the grammar. -/
inductive Level where
  | unit
  | conjunction
  | expression

/-- The tokens are a filter of a level with this tree. -/
inductive Derives : Level → Bool → List Token → Tree → Prop where
  | comparison {b : Bool} {p t c : Token} {op : Operator} (hp : p.kind = .path)
      (ht : t.IsOperator op) (hop : op.isLogical = false) (hpr : op ≠ .pr)
      (hc : c.kind = .constant) : Derives .unit b [p, t, c] (.node t (.leaf p) (.leaf c))
  | presence {b : Bool} {p t : Token} (hp : p.kind = .path) (ht : t.IsOperator .pr) :
      Derives .unit b [p, t] (.node t (.leaf p) .nil)
  | negation {b : Bool} {t : Token} {ts : List Token} {x : Tree} (ht : t.IsOperator .not)
      (hx : Derives .unit b ts x) : Derives .unit b (t :: ts) (.node t x .nil)
  | group {b : Bool} {ts : List Token} {x : Tree} (hx : Derives .expression b ts x) :
      Derives .unit b (.parenthesis true :: (ts ++ [.parenthesis false])) x
  | bracket {t : Token} {ts : List Token} {x : Tree} (hk : t.kind = .nestedPath)
      (hd : t.detail = .nested ts) (hx : Derives .expression false ts x) :
      Derives .unit true [t] (x.under t.text)
  | ofUnit {b : Bool} {ts : List Token} {x : Tree} (hx : Derives .unit b ts x) :
      Derives .conjunction b ts x
  | and {b : Bool} {ts us : List Token} {t : Token} {x y : Tree}
      (hx : Derives .conjunction b ts x) (ht : t.IsOperator .and) (hy : Derives .unit b us y) :
      Derives .conjunction b (ts ++ t :: us) (.node t x y)
  | ofConjunction {b : Bool} {ts : List Token} {x : Tree} (hx : Derives .conjunction b ts x) :
      Derives .expression b ts x
  | or {b : Bool} {ts us : List Token} {t : Token} {x y : Tree}
      (hx : Derives .expression b ts x) (ht : t.IsOperator .or)
      (hy : Derives .conjunction b us y) :
      Derives .expression b (ts ++ t :: us) (.node t x y)

namespace Derives

variable {level : Level} {b : Bool} {ts : List Token} {x : Tree}

/-- Without brackets no token has any. -/
theorem kind_ne_nestedPath (h : Derives level b ts x) (hb : b = false) :
    ∀ t ∈ ts, t.kind ≠ .nestedPath := by
  induction h with
  | comparison hp ht _ _ hc =>
      intro u hu
      simp only [List.mem_cons, List.not_mem_nil, or_false] at hu
      rcases hu with rfl | rfl | rfl
      · simp [hp]
      · exact ht.kind_ne
      · simp [hc]
  | presence hp ht =>
      intro u hu
      simp only [List.mem_cons, List.not_mem_nil, or_false] at hu
      rcases hu with rfl | rfl
      · simp [hp]
      · exact ht.kind_ne
  | negation ht _ ih =>
      intro u hu
      rcases List.mem_cons.mp hu with rfl | hu
      · exact ht.kind_ne
      · exact ih hb u hu
  | group _ ih =>
      intro u hu
      rcases List.mem_cons.mp hu with rfl | hu
      · decide
      · rcases List.mem_append.mp hu with hu | hu
        · exact ih hb u hu
        · rw [List.mem_singleton.mp hu]
          decide
  | bracket _ _ _ _ => exact absurd hb (by decide)
  | ofUnit _ ih => exact ih hb
  | ofConjunction _ ih => exact ih hb
  | and _ ht _ ihx ihy | or _ ht _ ihx ihy =>
      intro u hu
      rcases List.mem_append.mp hu with hu | hu
      · exact ihx hb u hu
      · rcases List.mem_cons.mp hu with rfl | hu
        · exact ht.kind_ne
        · exact ihy hb u hu

/-- An outer path can be put in front of every path of a derivation without brackets. -/
theorem under (h : Derives level b ts x) (outer : String) (hb : b = false) :
    Derives level false (ts.map (Token.under outer)) (x.under outer) := by
  induction h with
  | comparison hp ht hop hpr hc =>
      rw [List.map_cons, List.map_cons, Tree.under, ht.under]
      exact .comparison (Token.kind_under.trans hp) ht hop hpr (Token.kind_under.trans hc)
  | presence hp ht =>
      rw [List.map_cons, List.map_cons, Tree.under, ht.under]
      exact .presence (Token.kind_under.trans hp) ht
  | negation ht _ ih =>
      rw [List.map_cons, Tree.under, ht.under]
      exact .negation ht (ih hb)
  | group _ ih =>
      rw [List.map_cons, List.map_append]
      exact .group (ih hb)
  | bracket _ _ _ _ => exact absurd hb (by decide)
  | ofUnit _ ih => exact .ofUnit (ih hb)
  | and _ ht _ ihx ihy =>
      rw [List.map_append, List.map_cons, Tree.under, ht.under]
      exact .and (ihx hb) ht (ihy hb)
  | ofConjunction _ ih => exact .ofConjunction (ih hb)
  | or _ ht _ ihx ihy =>
      rw [List.map_append, List.map_cons, Tree.under, ht.under]
      exact .or (ihx hb) ht (ihy hb)

/-- The spliced tokens of a derivation have a derivation without brackets, of the same tree. -/
theorem splice (h : Derives level b ts x) :
    ∃ flat, Filter.splice ts = .ok flat ∧ Derives level false flat x := by
  induction h with
  | comparison hp ht hop hpr hc =>
      have hd : Derives .unit false _ _ := .comparison hp ht hop hpr hc
      exact ⟨_, splice_of_ne (hd.kind_ne_nestedPath rfl), hd⟩
  | presence hp ht =>
      have hd : Derives .unit false _ _ := .presence hp ht
      exact ⟨_, splice_of_ne (hd.kind_ne_nestedPath rfl), hd⟩
  | negation ht _ ih =>
      obtain ⟨flat, hflat, hd⟩ := ih
      exact ⟨_, splice_cons (if_neg ht.kind_ne) hflat, .negation ht hd⟩
  | group _ ih =>
      obtain ⟨flat, hflat, hd⟩ := ih
      exact ⟨_, splice_cons (if_neg (by decide)) (splice_append hflat rfl), .group hd⟩
  | bracket hk hd hx _ =>
      have hne := hx.kind_ne_nestedPath rfl
      refine ⟨_, splice_cons (spliceToken_bracket hk hd hne) rfl, ?_⟩
      rw [List.append_nil]
      exact .group (hx.under _ rfl)
  | ofUnit _ ih =>
      obtain ⟨flat, hflat, hd⟩ := ih
      exact ⟨flat, hflat, .ofUnit hd⟩
  | and _ ht _ ihx ihy =>
      obtain ⟨left, hleft, hx⟩ := ihx
      obtain ⟨right, hright, hy⟩ := ihy
      have ht' := splice_cons (if_neg ht.kind_ne) hright
      exact ⟨_, splice_append hleft ht', .and hx ht hy⟩
  | ofConjunction _ ih =>
      obtain ⟨flat, hflat, hd⟩ := ih
      exact ⟨flat, hflat, .ofConjunction hd⟩
  | or _ ht _ ihx ihy =>
      obtain ⟨left, hleft, hx⟩ := ihx
      obtain ⟨right, hright, hy⟩ := ihy
      have ht' := splice_cons (if_neg ht.kind_ne) hright
      exact ⟨_, splice_append hleft ht', .or hx ht hy⟩

end Derives

/-! ## The check of operands -/

/-- An operand with an operator at its root is checked as a filter. -/
theorem Tree.checkFilter_of_operator {op op' : Operator} {x : Tree} {check : Except Error Unit}
    (h : x.operator? = some op') : x.checkFilter op check = check := by
  cases x with
  | nil => cases h
  | node t l r =>
      have hnone : ¬(Tree.node t l r).operator?.isNone := by simp [h]
      rw [Tree.checkFilter, if_neg (by simp [Tree.isNil]), if_neg hnone]

theorem Tree.checkOperands_logical {t : Token} {op : Operator} {l r : Tree}
    (ht : t.operator? = some op) (hop : op.isLogical = true) :
    (Tree.node t l r).checkOperands =
      (l.checkFilter op l.checkOperands >>= fun _ => r.checkFilter op r.checkOperands) := by
  rw [Tree.checkOperands, ht]
  simp only [hop, if_true]

theorem Tree.checkOperands_relational {t : Token} {op : Operator} {l r : Tree}
    (ht : t.operator? = some op) (hop : op.isLogical = false) :
    (Tree.node t l r).checkOperands =
      (l.checkKind op .path >>= fun _ =>
        if op = .pr then .ok () else r.checkKind op .constant) := by
  rw [Tree.checkOperands, ht]
  simp only [hop, Bool.false_eq_true, if_false]

namespace Derives

variable {level : Level} {b : Bool} {ts : List Token} {x : Tree}

/-- The tree of a derivation without brackets has an operator at its root. -/
theorem operator (h : Derives level b ts x) (hb : b = false) : ∃ op, x.operator? = some op := by
  induction h with
  | comparison _ ht _ _ _ => exact ⟨_, ht.operator⟩
  | presence _ ht => exact ⟨_, ht.operator⟩
  | negation ht _ _ => exact ⟨_, ht.operator⟩
  | group _ ih => exact ih hb
  | bracket _ _ _ _ => exact absurd hb (by decide)
  | ofUnit _ ih => exact ih hb
  | and _ ht _ _ _ => exact ⟨_, ht.operator⟩
  | ofConjunction _ ih => exact ih hb
  | or _ ht _ _ _ => exact ⟨_, ht.operator⟩

/-- The tree of a derivation without brackets passes the check of operands. -/
theorem checkOperands (h : Derives level b ts x) (hb : b = false) :
    x.checkOperands = .ok () := by
  induction h with
  | comparison hp ht hop hpr hc =>
      rw [Tree.checkOperands_relational ht.operator hop, if_neg hpr]
      simp only [Tree.checkKind, Tree.leaf, Tree.kind?, hp, hc, if_true]
      rfl
  | presence hp ht =>
      rw [Tree.checkOperands_relational ht.operator rfl]
      simp only [Tree.checkKind, Tree.leaf, Tree.kind?, hp, if_true]
      rfl
  | negation ht hx ih =>
      obtain ⟨op, hop⟩ := hx.operator hb
      rw [Tree.checkOperands_logical ht.operator rfl, Tree.checkFilter_of_operator hop, ih hb]
      rfl
  | group _ ih => exact ih hb
  | bracket _ _ _ _ => exact absurd hb (by decide)
  | ofUnit _ ih => exact ih hb
  | and hx ht hy ihx ihy =>
      obtain ⟨_, hopx⟩ := hx.operator hb
      obtain ⟨_, hopy⟩ := hy.operator hb
      rw [Tree.checkOperands_logical ht.operator rfl, Tree.checkFilter_of_operator hopx,
        Tree.checkFilter_of_operator hopy, ihx hb]
      exact ihy hb
  | ofConjunction _ ih => exact ih hb
  | or hx ht hy ihx ihy =>
      obtain ⟨_, hopx⟩ := hx.operator hb
      obtain ⟨_, hopy⟩ := hy.operator hb
      rw [Tree.checkOperands_logical ht.operator rfl, Tree.checkFilter_of_operator hopx,
        Tree.checkFilter_of_operator hopy, ihx hb]
      exact ihy hb

end Derives

end Scim.Filter
