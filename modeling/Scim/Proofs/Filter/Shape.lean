import Scim.Proofs.Filter.Assembly

/-!
# The shape of filters that are read

A filter that is read has filters below its logical operators and a path, with or without a
constant, below its relational ones (`Tree.WellShaped`).  The shape is said of every node of the
tree, wherever it is (`Tree.Holds`).

The tree of the machine is proper (`proper_of_parse`).  What a proper tree holds is a proper tree
again or one of the leaves right below a relational operator (`Tree.Proper.parts`), so what is known
of the root of a proper tree is known of every node.
-/

namespace Scim.Filter.Tree

/-- A tree has another one in it, so many levels below its root. -/
inductive Holds : Tree → Nat → Tree → Prop where
  | here {x : Tree} : Holds x 0 x
  | left {t : Token} {l r y : Tree} {d : Nat} (h : Holds l d y) : Holds (.node t l r) (d + 1) y
  | right {t : Token} {l r y : Tree} {d : Nat} (h : Holds r d y) : Holds (.node t l r) (d + 1) y

/-- A tree with an operator at its root. -/
def IsFilter (x : Tree) : Prop := ∃ t op l r, x = .node t l r ∧ t.IsOperator op

/-- A leaf with a path. -/
def IsPathLeaf (x : Tree) : Prop := ∃ p, x = leaf p ∧ p.kind = .path

/-- A leaf with a constant that is known. -/
def IsConstantLeaf (x : Tree) : Prop :=
  ∃ c value, x = leaf c ∧ c.kind = .constant ∧ c.constant? = some value

/-- The children of an operator are what it takes for operands. -/
inductive Takes : Operator → Tree → Tree → Prop where
  | joined {op : Operator} {l r : Tree} (hop : op = .and ∨ op = .or) (hl : l.IsFilter)
      (hr : r.IsFilter) : Takes op l r
  | negation {l : Tree} (hl : l.IsFilter) : Takes .not l .nil
  | presence {l : Tree} (hl : l.IsPathLeaf) : Takes .pr l .nil
  | comparison {op : Operator} {l r : Tree} (hop : op.isLogical = false) (hpr : op ≠ .pr)
      (hl : l.IsPathLeaf) (hr : r.IsConstantLeaf) : Takes op l r

/-- A filter of which every part has its place. -/
structure WellShaped (x : Tree) : Prop where
  root : x.IsFilter
  /-- An operator is of its kind and has the operands that it takes. -/
  operators : ∀ d t l r, x.Holds d (.node t l r) → ∀ op, t.operator? = some op →
    t.IsOperator op ∧ Takes op l r
  /-- A token that is no operator has no children. -/
  others : ∀ d t l r, x.Holds d (.node t l r) → t.operator? = none → l = .nil ∧ r = .nil
  /-- A leaf is a child of a relational operator. -/
  leaves : ∀ d p, x.Holds d (leaf p) → ∃ e t l r, d = e + 1 ∧ x.Holds e (.node t l r) ∧
    t.kind = .relational ∧ (l = leaf p ∨ r = leaf p)
  /-- No way from the root has more than `maxDepth` tokens. -/
  depth : ∀ d t l r, x.Holds d (.node t l r) → d + 1 ≤ maxDepth

variable {x y l r : Tree} {t p : Token} {op : Operator} {d : Nat} {q : Token → Prop}

/-! ## What a tree holds -/

theorem holds_nil (h : Holds .nil d y) : y = .nil := by
  cases h
  rfl

/-- A leaf holds itself and nothing else. -/
theorem holds_leaf (h : (leaf p).Holds d y) : d = 0 ∧ y = leaf p ∨ y = .nil := by
  cases h with
  | here => exact .inl ⟨rfl, rfl⟩
  | left h => exact .inr (holds_nil h)
  | right h => exact .inr (holds_nil h)

/-- A node is on a way from the root that is no longer than the tree is high. -/
theorem Holds.lt_height (h : x.Holds d (.node t l r)) : d < x.height := by
  generalize hy : Tree.node t l r = y at h
  induction h with
  | here =>
      subst hy
      rw [height]
      omega
  | left _ ih | right _ ih =>
      have hbelow := ih hy
      rw [height]
      omega

/-- What holds of every token holds of the tokens of a part. -/
theorem Holds.forall (h : x.Holds d y) (hx : x.Forall q) : y.Forall q := by
  induction h with
  | here => exact hx
  | left _ ih => exact ih hx.2.1
  | right _ ih => exact ih hx.2.2

/-! ## Parts of proper trees -/

/-- A part of a tree: a proper tree, a leaf below a relational operator, or nothing. -/
inductive Part (x : Tree) : Nat → Tree → Prop where
  | proper {d : Nat} {y : Tree} (hy : y.Proper) : Part x d y
  | operand {d : Nat} {t p : Token} {op : Operator} {l r : Tree} (hx : x.Holds d (.node t l r))
      (ht : t.IsOperator op) (hop : op.isLogical = false) (hp : l = leaf p ∨ r = leaf p)
      (hkind : p.kind = .path ∨ p.kind = .constant) : Part x (d + 1) (leaf p)
  | nothing {d : Nat} : Part x d .nil

theorem Part.left (h : Part l d y) : Part (.node t l r) (d + 1) y := by
  cases h with
  | proper hy => exact .proper hy
  | operand hx ht hop hp hkind => exact .operand (.left hx) ht hop hp hkind
  | nothing => exact .nothing

theorem Part.right (h : Part r d y) : Part (.node t l r) (d + 1) y := by
  cases h with
  | proper hy => exact .proper hy
  | operand hx ht hop hp hkind => exact .operand (.right hx) ht hop hp hkind
  | nothing => exact .nothing

/-- What a child of a relational operator holds. -/
theorem part_of_operand (h : (leaf p).Holds d y) (ht : t.IsOperator op)
    (hop : op.isLogical = false) (hp : l = leaf p ∨ r = leaf p)
    (hkind : p.kind = .path ∨ p.kind = .constant) : Part (.node t l r) (d + 1) y := by
  rcases holds_leaf h with ⟨rfl, rfl⟩ | rfl
  · exact .operand .here ht hop hp hkind
  · exact .nothing

/-- What a proper tree holds is a part of it. -/
theorem Proper.parts (hx : x.Proper) (h : x.Holds d y) : Part x d y := by
  induction h with
  | here => exact .proper hx
  | left h ih =>
      cases hx with
      | comparison hp ht hop _ _ => exact part_of_operand h ht hop (.inl rfl) (.inl hp)
      | presence hp ht => exact part_of_operand h ht rfl (.inl rfl) (.inl hp)
      | negation _ hl => exact (ih hl).left
      | joined _ _ hl _ => exact (ih hl).left
  | right h ih =>
      cases hx with
      | comparison _ ht hop _ hc => exact part_of_operand h ht hop (.inr rfl) (.inr hc)
      | presence | negation =>
          rw [holds_nil h]
          exact .nothing
      | joined _ _ _ hr => exact (ih hr).right

/-! ## The root of a proper tree -/

theorem Proper.isFilter (h : x.Proper) : x.IsFilter := by
  cases h with
  | comparison _ ht | presence _ ht | negation ht | joined ht => exact ⟨_, _, _, _, rfl, ht⟩

/-- A constant among scanned tokens is known. -/
theorem isConstantLeaf_of_atom (hp : p.Atom) (hkind : p.kind = .constant) :
    (leaf p).IsConstantLeaf := by
  cases hp with
  | constant => exact ⟨_, _, rfl, rfl, rfl⟩
  | @operator text op => exact absurd hkind (Token.isOperator_ofOperator text op).kind_ne
  | path | parenthesis => cases hkind

/-- The operator at the root has the operands that it takes. -/
theorem Proper.takes (h : (Tree.node t l r).Proper) (hatoms : (Tree.node t l r).Forall Token.Atom) :
    ∃ op, t.IsOperator op ∧ Takes op l r := by
  cases h with
  | comparison hp ht hop hpr hc =>
      exact ⟨_, ht, .comparison hop hpr ⟨_, rfl, hp⟩ (isConstantLeaf_of_atom hatoms.2.2.1 hc)⟩
  | presence hp ht => exact ⟨_, ht, .presence ⟨_, rfl, hp⟩⟩
  | negation ht hl => exact ⟨_, ht, .negation hl.isFilter⟩
  | joined ht hop hl hr => exact ⟨_, ht, .joined hop hl.isFilter hr.isFilter⟩

/-- A leaf is not proper. -/
theorem not_proper_leaf : ¬ (leaf p).Proper := by
  intro h
  cases h with
  | negation _ hl | joined _ _ hl _ => cases hl

/-! ## Filters that are read -/

/-- A proper tree of scanned tokens is well shaped, if it is not too high. -/
theorem Proper.wellShaped (hx : x.Proper) (hatoms : x.Forall Token.Atom)
    (hheight : x.height ≤ maxDepth) : x.WellShaped := by
  refine ⟨hx.isFilter, ?operators, ?others, ?leaves, ?depth⟩
  case operators =>
    intro d t l r hd op hop
    have hnode : (Tree.node t l r).Forall Token.Atom := hd.forall hatoms
    cases hx.parts hd with
    | proper hy =>
        obtain ⟨op', ht, htakes⟩ := hy.takes hnode
        obtain rfl : op' = op := Option.some.inj (ht.operator.symm.trans hop)
        exact ⟨ht, htakes⟩
    | operand _ _ _ _ hkind =>
        rw [hnode.1.operator?_eq_none hkind] at hop
        cases hop
  case others =>
    intro d t l r hd hnone
    cases hx.parts hd with
    | proper hy =>
        obtain ⟨op, ht, _⟩ := hy.takes (hd.forall hatoms)
        cases ht.operator.symm.trans hnone
    | operand => exact ⟨rfl, rfl⟩
  case leaves =>
    intro d p hd
    cases hx.parts hd with
    | proper hy => exact absurd hy not_proper_leaf
    | operand hheld ht hop hp _ => exact ⟨_, _, _, _, rfl, hheld, by rw [ht.kind, hop]; rfl, hp⟩
  case depth =>
    intro d t l r hd
    exact Nat.le_trans hd.lt_height hheight

/-- Every filter that is read is well shaped, and no higher than `maxDepth`. -/
theorem wellShaped_of_read {limit : Nat} {text : String} (h : read limit text = .ok x) :
    x.WellShaped ∧ x.height ≤ maxDepth := by
  obtain ⟨ts, hts, hparse⟩ := read_cases h
  obtain ⟨hscanned, _⟩ := scanned_of_tokenize hts
  obtain ⟨hproper, hatoms, hheight⟩ := proper_of_parse hscanned hparse
  exact ⟨hproper.wellShaped hatoms hheight, hheight⟩

/-- A negated bracket beside a presence test, in an order that the grammar does not have. -/
theorem wellShaped_of_read_misplaced :
    ∃ x, read defaultMaxLength "title pr or emails[not (type eq \"work\") primary pr and]" = .ok x ∧
      x.WellShaped := by
  obtain ⟨x, hx⟩ : ∃ x, read defaultMaxLength
      "title pr or emails[not (type eq \"work\") primary pr and]" = .ok x := ⟨_, rfl⟩
  exact ⟨x, hx, (wellShaped_of_read hx).1⟩

end Scim.Filter.Tree
