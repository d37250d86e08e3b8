import Scim.Proofs.Filter.Words

/-!
# How trees are put together

Whatever tokens the stack machine takes, in whatever order, it makes the same few moves: it puts an
operand on the output, lets an operator or an opening parenthesis wait, joins the newest operands
under the operator on top, or drops the opening parenthesis on top for a closing one.
`Machine.Runs` is the relation of these moves, and every successful run is made of them
(`runs_of_parse`).

What holds of the trees on the output is proved by induction on the moves.

* A property that joining keeps holds of every tree (`Machine.Runs.forall_output`).
* The tree has the operands of the text in their order (`Machine.Runs.operands`), and its operators
  in some order (`Machine.Runs.operators`).
* A tree of scanned tokens that passes the check of operands is *proper*: relational operators have
  a path and a constant below them, logical operators have filters (`proper_of_parse`).

A proper tree has a derivation of its own.  Written with all its parentheses it is a filter of the
grammar (`Tree.Proper.derives`).
-/

namespace Scim.Filter

/-- Whether the token is an operand of the machine. -/
def Token.isOperand (t : Token) : Bool := t.kind = .path || t.kind = .constant

/-- Whether the token is an operator. -/
def Token.isOperator (t : Token) : Bool := t.kind = .relational || t.kind = .logical

/-- The tokens of the tree from left to right. -/
def Tree.tokens : Tree → List Token
  | .nil => []
  | .node t l r => l.tokens ++ t :: r.tokens

/-- Every token of the tree has a property. -/
def Tree.Forall (p : Token → Prop) : Tree → Prop
  | .nil => True
  | .node t l r => p t ∧ l.Forall p ∧ r.Forall p

instance Tree.decidableForall (p : Token → Prop) [DecidablePred p] :
    ∀ x : Tree, Decidable (x.Forall p)
  | .nil => inferInstanceAs (Decidable True)
  | .node t l r =>
      have := decidableForall p l
      have := decidableForall p r
      inferInstanceAs (Decidable (p t ∧ l.Forall p ∧ r.Forall p))

/-! ## Moves of the machine -/

namespace Machine

/-- The machine reads tokens and gets from one state to another. -/
inductive Runs : Machine → List Token → Machine → Prop where
  | done (m : Machine) : Runs m [] m
  | operand {output : List Tree} {waiting ts : List Token} {t : Token} {m : Machine}
      (ht : t.isOperand = true) (h : Runs ⟨.leaf t :: output, waiting⟩ ts m) :
      Runs ⟨output, waiting⟩ (t :: ts) m
  | wait {output : List Tree} {waiting ts : List Token} {t : Token} {m : Machine}
      (ht : t.isOperator = true ∨ t.isOpen = true) (h : Runs ⟨output, t :: waiting⟩ ts m) :
      Runs ⟨output, waiting⟩ (t :: ts) m
  | unary {output : List Tree} {waiting ts : List Token} {t : Token} {op : Operator} {x : Tree}
      {m : Machine} (ht : t.operator? = some op) (harity : op.arity = 1)
      (hheight : (Tree.node t x .nil).height ≤ maxDepth)
      (h : Runs ⟨.node t x .nil :: output, waiting⟩ ts m) :
      Runs ⟨x :: output, t :: waiting⟩ ts m
  | binary {output : List Tree} {waiting ts : List Token} {t : Token} {op : Operator} {x y : Tree}
      {m : Machine} (ht : t.operator? = some op) (harity : op.arity = 2)
      (hheight : (Tree.node t x y).height ≤ maxDepth)
      (h : Runs ⟨.node t x y :: output, waiting⟩ ts m) :
      Runs ⟨y :: x :: output, t :: waiting⟩ ts m
  | close {output : List Tree} {waiting ts : List Token} {t top : Token} {m : Machine}
      (htop : top.isOpen = true) (hkind : t.kind = .parenthesis)
      (h : Runs ⟨output, waiting⟩ ts m) : Runs ⟨output, top :: waiting⟩ (t :: ts) m

variable {m m' m'' : Machine} {t : Token} {ts waiting : List Token} {output output' : List Tree}
  {x : Tree} {incoming : Operator}

theorem push_eq_ok (h : push x output = .ok output') :
    x.height ≤ maxDepth ∧ output' = x :: output := by
  unfold push at h
  split at h
  case isTrue => cases h
  case isFalse hheight =>
      cases h
      exact ⟨Nat.le_of_not_lt hheight, rfl⟩

/-- Taking the operands of the operator on top is a move. -/
theorem runs_of_reduce (h : reduce t output = .ok output') (hnext : Runs ⟨output', waiting⟩ ts m) :
    Runs ⟨output, t :: waiting⟩ ts m := by
  unfold reduce at h
  split at h
  case h_1 => cases h
  case h_2 op hop =>
      split at h
      case h_1 harity =>
          obtain ⟨hheight, rfl⟩ := push_eq_ok h
          exact .unary hop harity hheight hnext
      case h_2 harity =>
          obtain ⟨hheight, rfl⟩ := push_eq_ok h
          exact .binary hop harity hheight hnext
      case h_3 => cases h
      case h_4 => cases h
      case h_5 => cases h

theorem runs_of_yield (h : yield incoming waiting output = .ok m) (hnext : Runs m ts m') :
    Runs ⟨output, waiting⟩ ts m' := by
  fun_induction yield incoming waiting output with
  | case1 =>
      cases h
      exact hnext
  | case2 =>
      cases h
      exact hnext
  | case3 _ _ _ _ _ _ ih =>
      obtain ⟨output', hreduce, h⟩ := ok_of_bind h
      exact runs_of_reduce hreduce (ih output' h)
  | case4 =>
      cases h
      exact hnext

theorem runs_of_close (ht : t.kind = .parenthesis) (h : close waiting output = .ok m)
    (hnext : Runs m ts m') : Runs ⟨output, waiting⟩ (t :: ts) m' := by
  fun_induction close waiting output with
  | case1 => cases h
  | case2 _ _ _ htop =>
      cases h
      exact .close htop ht hnext
  | case3 _ _ _ _ ih =>
      obtain ⟨output', hreduce, h⟩ := ok_of_bind h
      exact runs_of_reduce hreduce (ih output' h)

theorem runs_of_drain (h : drain waiting output = .ok output') :
    Runs ⟨output, waiting⟩ [] ⟨output', []⟩ := by
  fun_induction drain waiting output with
  | case1 =>
      cases h
      exact .done _
  | case2 => cases h
  | case3 _ _ _ _ ih =>
      obtain ⟨output'', hreduce, h⟩ := ok_of_bind h
      exact runs_of_reduce hreduce (ih output'' h)

/-- A step is made of moves. -/
theorem runs_of_step (h : m.step t = .ok m') (hnext : Runs m' ts m'') : Runs m (t :: ts) m'' := by
  cases hkind : t.kind with
  | path | constant =>
      simp only [step, hkind] at h
      cases h
      exact .operand (by simp [Token.isOperand, hkind]) hnext
  | relational | logical =>
      simp only [step, hkind] at h
      split at h
      case h_1 => cases h
      case h_2 =>
          obtain ⟨next, hyield, h⟩ := ok_of_bind h
          cases h
          exact runs_of_yield hyield (.wait (.inl (by simp [Token.isOperator, hkind])) hnext)
  | parenthesis =>
      simp only [step, hkind] at h
      split at h
      case isTrue hopen =>
          cases h
          exact .wait (.inr hopen) hnext
      case isFalse => exact runs_of_close hkind h hnext
  | nestedPath =>
      simp only [step, hkind] at h
      cases h

theorem runs_of_run (h : m.run ts = .ok m') (hnext : Runs m' [] m'') : Runs m ts m'' := by
  induction ts generalizing m with
  | nil =>
      cases h
      exact hnext
  | cons t rest ih =>
      rw [run] at h
      obtain ⟨next, hstep, h⟩ := ok_of_bind h
      exact runs_of_step hstep (ih h)

end Machine

/-- Reading that succeeds is scanning and parsing. -/
theorem read_cases {limit : Nat} {text : String} {x : Tree} (h : read limit text = .ok x) :
    ∃ ts, tokenize text = .ok ts ∧ parse ts = .ok x := by
  unfold read at h
  split at h
  case isTrue => cases h
  case isFalse => exact ok_of_bind h

/-- What a text is read as does not depend on how long it may be. -/
theorem read_unique {limit limit' : Nat} {text : String} {x y : Tree}
    (h : read limit text = .ok x) (h' : read limit' text = .ok y) : x = y := by
  obtain ⟨ts, hts, hparse⟩ := read_cases h
  obtain ⟨ts', hts', hparse'⟩ := read_cases h'
  rw [hts] at hts'
  cases hts'
  rw [hparse] at hparse'
  exact Except.ok.inj hparse'

/-- Parsing that succeeds is a run over the spliced tokens that leaves the tree, and a check. -/
theorem parse_cases {ts : List Token} {x : Tree} (h : parse ts = .ok x) :
    ∃ flat m, splice ts = .ok flat ∧ Machine.run {} flat = .ok m ∧
      Machine.drain m.waiting m.output = .ok [x] ∧ x.checkOperands = .ok () := by
  obtain ⟨flat, hflat, h⟩ := ok_of_bind h
  obtain ⟨m, hrun, h⟩ := ok_of_bind h
  obtain ⟨root, hfinish, h⟩ := ok_of_bind h
  obtain ⟨_, hcheck, h⟩ := ok_of_bind h
  cases h
  obtain ⟨output, hdrain, hfinish⟩ := ok_of_bind hfinish
  refine ⟨flat, m, hflat, hrun, ?_, hcheck⟩
  split at hfinish
  case h_1 => cases hfinish
  case h_2 =>
      cases hfinish
      exact hdrain
  case h_3 => cases hfinish

theorem runs_of_parse {ts : List Token} {x : Tree} (h : parse ts = .ok x) :
    ∃ flat, splice ts = .ok flat ∧ Machine.Runs {} flat ⟨[x], []⟩ ∧ x.checkOperands = .ok () := by
  obtain ⟨flat, m, hflat, hrun, hdrain, hcheck⟩ := parse_cases h
  exact ⟨flat, hflat, Machine.runs_of_run hrun (Machine.runs_of_drain hdrain), hcheck⟩

/-! ## What joining keeps -/

namespace Machine.Runs

variable {m m' : Machine} {ts : List Token}

/-- What holds of operands, and of a joined tree if it holds of the parts, holds of every tree. -/
theorem forall_output {q : Token → Prop} {P : Tree → Prop}
    (hleaf : ∀ t, q t → t.isOperand = true → P (.leaf t))
    (hunary : ∀ t op x, q t → t.operator? = some op → op.arity = 1 → P x →
      (Tree.node t x .nil).height ≤ maxDepth → P (.node t x .nil))
    (hbinary : ∀ t op x y, q t → t.operator? = some op → op.arity = 2 → P x → P y →
      (Tree.node t x y).height ≤ maxDepth → P (.node t x y))
    (h : Runs m ts m') (houtput : ∀ x ∈ m.output, P x) (hwaiting : ∀ t ∈ m.waiting, q t)
    (hts : ∀ t ∈ ts, q t) : ∀ x ∈ m'.output, P x := by
  induction h with
  | done => exact houtput
  | operand ht _ ih =>
      obtain ⟨hq, hrest⟩ := List.forall_mem_cons.mp hts
      exact ih (List.forall_mem_cons.mpr ⟨hleaf _ hq ht, houtput⟩) hwaiting hrest
  | wait _ _ ih =>
      obtain ⟨hq, hrest⟩ := List.forall_mem_cons.mp hts
      exact ih houtput (List.forall_mem_cons.mpr ⟨hq, hwaiting⟩) hrest
  | unary ht harity hheight _ ih =>
      obtain ⟨hx, houtput⟩ := List.forall_mem_cons.mp houtput
      obtain ⟨hq, hwaiting⟩ := List.forall_mem_cons.mp hwaiting
      have hnode := hunary _ _ _ hq ht harity hx hheight
      exact ih (List.forall_mem_cons.mpr ⟨hnode, houtput⟩) hwaiting hts
  | binary ht harity hheight _ ih =>
      obtain ⟨hy, houtput⟩ := List.forall_mem_cons.mp houtput
      obtain ⟨hx, houtput⟩ := List.forall_mem_cons.mp houtput
      obtain ⟨hq, hwaiting⟩ := List.forall_mem_cons.mp hwaiting
      have hnode := hbinary _ _ _ _ hq ht harity hx hy hheight
      exact ih (List.forall_mem_cons.mpr ⟨hnode, houtput⟩) hwaiting hts
  | close _ _ _ ih =>
      obtain ⟨_, hwaiting⟩ := List.forall_mem_cons.mp hwaiting
      obtain ⟨_, hrest⟩ := List.forall_mem_cons.mp hts
      exact ih houtput hwaiting hrest

/-- What holds of every token that is read holds of every token of the tree. -/
theorem forall_tokens {p : Token → Prop} {x : Tree} (h : Runs {} ts ⟨[x], []⟩)
    (hts : ∀ t ∈ ts, p t) : x.Forall p := by
  have hall : ∀ y ∈ [x], Tree.Forall p y := h.forall_output
    (fun _ ht _ => ⟨ht, trivial, trivial⟩) (fun _ _ _ ht _ _ hx _ => ⟨ht, hx, trivial⟩)
    (fun _ _ _ _ ht _ _ hx hy _ => ⟨ht, hx, hy⟩) (fun _ hx => absurd hx List.not_mem_nil)
    (fun _ ht => absurd ht List.not_mem_nil) hts
  exact hall x List.mem_cons_self

end Machine.Runs

/-! ## Nothing is lost -/

/-- The tokens of the trees on the output, from the oldest one on. -/
def Machine.content (output : List Tree) : List Token := output.reverse.flatMap Tree.tokens

section

variable {t : Token} {x : Tree} {output : List Tree}

@[simp] theorem Machine.content_cons : content (x :: output) = content output ++ x.tokens := by
  simp [content]

@[simp] theorem Tree.tokens_leaf : (Tree.leaf t).tokens = [t] := rfl

theorem Tree.height_leaf (t : Token) : (Tree.leaf t).height ≤ maxDepth := by
  show 1 ≤ maxDepth
  decide

theorem Token.isOperator_of_isOperand (h : t.isOperand = true) : t.isOperator = false := by
  rcases Bool.or_eq_true_iff.mp h with h | h <;> simp [isOperator, of_decide_eq_true h]

theorem Token.IsOperator.isOperator {op : Operator} (h : t.IsOperator op) :
    t.isOperator = true := by
  rcases h.kind_cases with hkind | hkind <;> simp [Token.isOperator, hkind]

theorem Token.isOperand_of_isOperator (h : t.isOperator = true) : t.isOperand = false :=
  Bool.eq_false_iff.mpr fun hoperand => by simp [isOperator_of_isOperand hoperand] at h

/-- A parenthesis is neither operand nor operator. -/
theorem Token.neither_of_parenthesis (h : t.kind = .parenthesis) :
    t.isOperand = false ∧ t.isOperator = false := by
  simp [isOperand, isOperator, h]

theorem Token.kind_of_isOpen (h : t.isOpen = true) : t.kind = .parenthesis :=
  of_decide_eq_true (Bool.and_eq_true_iff.mp h).1

end

namespace Machine.Runs

variable {m m' : Machine} {ts : List Token}

/-- The operands keep their order. -/
theorem operands (h : Runs m ts m') (hwaiting : ∀ t ∈ m.waiting, t.isOperand = false) :
    (content m'.output).filter Token.isOperand =
      (content m.output).filter Token.isOperand ++ ts.filter Token.isOperand := by
  induction h with
  | done => simp
  | operand ht _ ih =>
      rw [ih hwaiting]
      simp [ht]
  | @wait _ _ _ t _ ht _ ih =>
      have hfalse : t.isOperand = false := by
        rcases ht with ht | ht
        · exact Token.isOperand_of_isOperator ht
        · exact (Token.neither_of_parenthesis (Token.kind_of_isOpen ht)).1
      rw [ih (List.forall_mem_cons.mpr ⟨hfalse, hwaiting⟩)]
      simp [hfalse]
  | unary _ _ _ _ ih | binary _ _ _ _ ih =>
      obtain ⟨ht, hwaiting⟩ := List.forall_mem_cons.mp hwaiting
      rw [ih hwaiting]
      simp [Tree.tokens, ht]
  | close _ hkind _ ih =>
      obtain ⟨_, hwaiting⟩ := List.forall_mem_cons.mp hwaiting
      rw [ih hwaiting]
      simp [Token.neither_of_parenthesis hkind]

/-- The operators are kept, in some order. -/
theorem operators (h : Runs m ts m') :
    ((content m'.output ++ m'.waiting).filter Token.isOperator).Perm
      ((content m.output ++ m.waiting ++ ts).filter Token.isOperator) := by
  induction h with
  | done => simp
  | operand ht _ ih =>
      refine ih.trans (.of_eq ?_)
      simp [Token.isOperator_of_isOperand ht]
  | wait _ _ ih =>
      refine ih.trans (.filter _ ?_)
      simp only [List.append_assoc, List.cons_append]
      exact List.perm_middle.symm.append_left _
  | unary _ _ _ _ ih =>
      refine ih.trans (.of_eq ?_)
      simp [Tree.tokens]
  | binary _ _ _ _ ih =>
      refine ih.trans (.filter _ ?_)
      simp only [content_cons, Tree.tokens, List.append_assoc, List.cons_append]
      exact (List.perm_middle.symm.append_left _).append_left _
  | close htop hkind _ ih =>
      refine ih.trans (.of_eq ?_)
      simp [Token.neither_of_parenthesis hkind,
        Token.neither_of_parenthesis (Token.kind_of_isOpen htop)]

end Machine.Runs

/-! ## Proper trees -/

/-- A tree as the machine joins it from scanned tokens. -/
inductive Tree.Joined : Tree → Prop where
  | operand {t : Token} (ht : t.Atom) (hoperand : t.isOperand = true) : Joined (.leaf t)
  | unary {t : Token} {op : Operator} {x : Tree} (ht : t.IsOperator op) (harity : op.arity = 1)
      (hx : Joined x) : Joined (.node t x .nil)
  | binary {t : Token} {op : Operator} {x y : Tree} (ht : t.IsOperator op) (harity : op.arity = 2)
      (hx : Joined x) (hy : Joined y) : Joined (.node t x y)

/-- A tree in which every operator has operands of the right kind. -/
inductive Tree.Proper : Tree → Prop where
  | comparison {p t c : Token} {op : Operator} (hp : p.kind = .path) (ht : t.IsOperator op)
      (hop : op.isLogical = false) (hpr : op ≠ .pr) (hc : c.kind = .constant) :
      Proper (.node t (.leaf p) (.leaf c))
  | presence {p t : Token} (hp : p.kind = .path) (ht : t.IsOperator .pr) :
      Proper (.node t (.leaf p) .nil)
  | negation {t : Token} {x : Tree} (ht : t.IsOperator .not) (hx : Proper x) :
      Proper (.node t x .nil)
  | joined {t : Token} {op : Operator} {x y : Tree} (ht : t.IsOperator op)
      (hop : op = .and ∨ op = .or) (hx : Proper x) (hy : Proper y) : Proper (.node t x y)

namespace Tree

variable {x : Tree} {op : Operator} {kind : Token.Kind}

/-- An operand that is checked for its kind is a leaf of that kind. -/
theorem Joined.eq_leaf (h : x.Joined) (hkind : kind = .path ∨ kind = .constant)
    (hcheck : x.checkKind op kind = .ok ()) : ∃ t, x = .leaf t ∧ t.kind = kind := by
  have hroot : x.kind? = some kind := by
    unfold checkKind at hcheck
    split at hcheck
    case h_1 => cases hcheck
    case h_2 k hk =>
        split at hcheck
        case isTrue hsame => rw [hk, hsame]
        case isFalse => cases hcheck
  cases h with
  | @operand t _ _ => exact ⟨t, rfl, Option.some.inj hroot⟩
  | unary ht _ _ | binary ht _ _ _ =>
      have hsame := Option.some.inj hroot
      rcases hkind with rfl | rfl
      · exact absurd hsame ht.kind_ne
      · exact absurd hsame ht.kind_ne

/-- A child that passes as a filter is checked itself. -/
theorem Joined.checkOperands_of_filter (h : x.Joined) {check : Except Error Unit}
    (hcheck : x.checkFilter op check = .ok ()) : check = .ok () := by
  unfold checkFilter at hcheck
  split at hcheck
  case isTrue hnil => cases h <;> cases hnil
  case isFalse =>
      split at hcheck
      case isTrue => cases hcheck
      case isFalse => exact hcheck

/-- A joined tree that passes the check of operands is proper. -/
theorem Joined.proper (h : x.Joined) (hcheck : x.checkOperands = .ok ()) : x.Proper := by
  induction h with
  | @operand t ht hoperand =>
      have hkind : t.kind = .path ∨ t.kind = .constant := by
        simpa [Token.isOperand] using hoperand
      simp [leaf, checkOperands, ht.operator?_eq_none hkind, hkind, isNil] at hcheck
  | @unary t op x ht harity hx ih =>
      cases hlogical : op.isLogical with
      | true =>
          rw [checkOperands_logical ht.operator hlogical] at hcheck
          obtain ⟨_, hleft, _⟩ := ok_of_bind hcheck
          have hproper := ih (hx.checkOperands_of_filter hleft)
          cases op with
          | not => exact .negation ht hproper
          | _ => cases harity <;> cases hlogical
      | false =>
          rw [checkOperands_relational ht.operator hlogical] at hcheck
          obtain ⟨_, hleft, _⟩ := ok_of_bind hcheck
          obtain ⟨p, rfl, hp⟩ := hx.eq_leaf (.inl rfl) hleft
          cases op with
          | pr => exact .presence hp ht
          | _ => cases harity <;> cases hlogical
  | @binary t op x y ht harity hx hy ihx ihy =>
      cases hlogical : op.isLogical with
      | true =>
          rw [checkOperands_logical ht.operator hlogical] at hcheck
          obtain ⟨_, hleft, hright⟩ := ok_of_bind hcheck
          have hproper := ihx (hx.checkOperands_of_filter hleft)
          have hproper' := ihy (hy.checkOperands_of_filter hright)
          cases op with
          | and => exact .joined ht (.inl rfl) hproper hproper'
          | or => exact .joined ht (.inr rfl) hproper hproper'
          | _ => cases harity <;> cases hlogical
      | false =>
          have hpr : op ≠ .pr := by
            rintro rfl
            cases harity
          rw [checkOperands_relational ht.operator hlogical, if_neg hpr] at hcheck
          obtain ⟨_, hleft, hright⟩ := ok_of_bind hcheck
          obtain ⟨p, rfl, hp⟩ := hx.eq_leaf (.inl rfl) hleft
          obtain ⟨c, rfl, hc⟩ := hy.eq_leaf (.inr rfl) hright
          exact .comparison hp ht hlogical hpr hc

/-- The tokens of the tree with parentheses around every filter that is joined or negated. -/
def written : Tree → List Token
  | .nil => []
  | .node t l r =>
      match t.operator? with
      | some .not => t :: .parenthesis true :: (l.written ++ [.parenthesis false])
      | some .and => .parenthesis true :: (l.written ++ t :: r.written ++ [.parenthesis false])
      | some .or => .parenthesis true :: (l.written ++ t :: r.written ++ [.parenthesis false])
      | _ => l.tokens ++ t :: r.tokens

theorem written_relational {t : Token} {l r : Tree} (ht : t.operator? = some op)
    (hop : op.isLogical = false) : (Tree.node t l r).written = l.tokens ++ t :: r.tokens := by
  rw [written, ht]
  cases op <;> first | rfl | cases hop

theorem written_joined {t : Token} {l r : Tree} (ht : t.operator? = some op)
    (hop : op = .and ∨ op = .or) : (Tree.node t l r).written =
      .parenthesis true :: (l.written ++ t :: r.written ++ [.parenthesis false]) := by
  rw [written, ht]
  rcases hop with rfl | rfl <;> rfl

/-- A proper tree is the tree of its written tokens. -/
theorem Proper.derives (h : x.Proper) : Derives .unit false x.written x := by
  induction h with
  | comparison hp ht hop hpr hc =>
      rw [written_relational ht.operator hop]
      exact .comparison hp ht hop hpr hc
  | presence hp ht =>
      rw [written_relational ht.operator rfl]
      exact .presence hp ht
  | negation ht _ ih =>
      rw [written, ht.operator]
      exact .negation ht (.group (.ofConjunction (.ofUnit ih)))
  | joined ht hop _ _ ihx ihy =>
      rw [written_joined ht.operator hop]
      rcases hop with rfl | rfl
      · exact .group (.ofConjunction (.and (.ofUnit ihx) ht ihy))
      · exact .group (.or (.ofConjunction (.ofUnit ihx)) ht (.ofUnit ihy))

/-- The written tokens are those of the tree, apart from parentheses and the place of `not`. -/
theorem Proper.written_tokens (h : x.Proper) :
    x.written.filter Token.isOperand = x.tokens.filter Token.isOperand ∧
      (x.written.filter Token.isOperator).Perm (x.tokens.filter Token.isOperator) := by
  have hparen : ∀ isOpen, (Token.parenthesis isOpen).isOperand = false ∧
      (Token.parenthesis isOpen).isOperator = false :=
    fun isOpen => Token.neither_of_parenthesis rfl
  induction h with
  | comparison _ ht hop _ _ =>
      rw [written_relational ht.operator hop]
      exact ⟨rfl, .refl _⟩
  | presence _ ht =>
      rw [written_relational ht.operator rfl]
      exact ⟨rfl, .refl _⟩
  | negation ht _ ih =>
      have hoperand := Token.isOperand_of_isOperator ht.isOperator
      rw [written, ht.operator]
      constructor
      · simp [tokens, hparen, hoperand, ih.1]
      · simp only [tokens, hparen, ht.isOperator, List.filter_cons, List.filter_append, if_true,
          Bool.false_eq_true, if_false, List.filter_nil, List.append_nil]
        exact (ih.2.cons _).trans (List.perm_append_singleton _ _).symm
  | joined ht hop _ _ ihx ihy =>
      have hoperand := Token.isOperand_of_isOperator ht.isOperator
      rw [written_joined ht.operator hop]
      constructor
      · simp [tokens, hparen, hoperand, ihx.1, ihy.1]
      · simp only [tokens, hparen, ht.isOperator, List.filter_cons, List.filter_append, if_true,
          Bool.false_eq_true, if_false, List.filter_nil, List.append_nil]
        exact ihx.2.append (ihy.2.cons _)

end Tree

/-- The tree of scanned tokens is proper, has no brackets and is not too high. -/
theorem proper_of_parse {ts : List Token} {x : Tree} (hts : ∀ t ∈ ts, t.Scanned)
    (h : parse ts = .ok x) : x.Proper ∧ x.Forall Token.Atom ∧ x.height ≤ maxDepth := by
  obtain ⟨flat, hflat, hruns, hcheck⟩ := runs_of_parse h
  obtain ⟨flat', hflat', hatoms⟩ := splice_scanned hts
  obtain rfl : flat = flat' := by
    rw [hflat] at hflat'
    exact Except.ok.inj hflat'
  have hjoined : ∀ y ∈ [x], Tree.Joined y ∧ y.height ≤ maxDepth := hruns.forall_output
    (fun t ht hoperand => ⟨.operand ht hoperand, Tree.height_leaf t⟩)
    (fun t op x ht hop harity hx hheight => ⟨.unary (ht.isOperator hop) harity hx.1, hheight⟩)
    (fun t op x y ht hop harity hx hy hheight =>
      ⟨.binary (ht.isOperator hop) harity hx.1 hy.1, hheight⟩)
    (fun _ hx => absurd hx List.not_mem_nil) (fun _ ht => absurd ht List.not_mem_nil) hatoms
  obtain ⟨hx, hheight⟩ := hjoined x List.mem_cons_self
  exact ⟨hx.proper hcheck, hruns.forall_tokens hatoms, hheight⟩

end Scim.Filter
