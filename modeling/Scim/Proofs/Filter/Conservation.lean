import Mathlib.Algebra.BigOperators.Group.Multiset.Basic
import Mathlib.Algebra.Order.Group.Multiset
import Mathlib.Tactic.Abel
import Scim.Proofs.Filter.Assembly

/-!
# Nothing is lost and nothing is made up

The tree of a parse has the operands of the flat tokens as its leaves, in their order, and their
operators as its inner tokens (`conserves_of_parse`).  Tokens that are put together by hand can do
one thing more.  The stack machine takes an opening parenthesis for an operator if it carries one,
when a later operator yields to it, and then the group is never closed.  There are as many
parentheses of this kind in the tree as more groups are opened than closed.

What the machine holds is kept by every function that works on its stacks.  `Machine.Keeps` says
what reading tokens does to the leaves and to the other tokens that it holds, so runs are put
together from steps (`Machine.Keeps.trans`).
-/

namespace Scim.Filter

/-- Whether the token ends a group, which every parenthesis does that does not open one. -/
def Token.endsGroup (t : Token) : Bool := t.kind = .parenthesis && !t.isOpen

/-- Whether the token comes to wait on the stack. -/
def Token.waits (t : Token) : Bool := t.isOperator || t.isOpen

namespace Tree

/-- The tokens without a child, from left to right. -/
def leaves : Tree → List Token
  | nil => []
  | node t l r => if l.isNil && r.isNil then [t] else l.leaves ++ r.leaves

/-- The tokens with a child. -/
def inner : Tree → Multiset Token
  | nil => 0
  | node t l r => (if l.isNil && r.isNil then 0 else {t}) + (l.inner + r.inner)

variable {t : Token} {l r : Tree}

@[simp] theorem leaves_leaf : (leaf t).leaves = [t] := rfl

@[simp] theorem inner_leaf : (leaf t).inner = 0 := by
  simp [leaf, inner, isNil]

theorem leaves_node (h : l.isNil = false) : (node t l r).leaves = l.leaves ++ r.leaves := by
  simp [leaves, h]

theorem inner_node (h : l.isNil = false) : (node t l r).inner = {t} + (l.inner + r.inner) := by
  simp [inner, h]

theorem length_leaves (x : Tree) : x.leaves.length = x.leafCount := by
  induction x with
  | nil => rfl
  | node t l r ihl ihr =>
      cases l with
      | nil => cases r <;> simp_all [leaves, leafCount, isNil]
      | node => simp_all [leaves, leafCount, isNil]

theorem card_inner (x : Tree) : x.inner.card = x.innerCount := by
  induction x with
  | nil => rfl
  | node t l r ihl ihr =>
      simp only [inner, innerCount, Multiset.card_add, ihl, ihr, Nat.add_assoc]
      split <;> rfl

end Tree

/-- A tree holds the operands of flat tokens as leaves and their operators as inner tokens, and with
these the opening parentheses that have been taken for operators. -/
structure Conserves (flat : List Token) (taken : Multiset Token) (x : Tree) : Prop where
  leaves : x.leaves = flat.filter Token.isOperand
  inner : x.inner = flat.filter Token.isOperator + taken
  /-- What is taken for an operator opens a group and carries an operator. -/
  le_parentheses : taken ≤ flat.filter fun t => t.isOpen && t.operator?.isSome
  /-- As many are taken as more groups are opened than closed. -/
  opened : taken.card + flat.countP Token.endsGroup = flat.countP Token.isOpen
  leafCount : x.leafCount = flat.countP Token.isOperand
  innerCount : x.innerCount = flat.countP Token.isOperator + taken.card

namespace Machine

/-- The leaves of the trees on the output, from the oldest one on. -/
def leaves (output : List Tree) : List Token := output.reverse.flatMap Tree.leaves

/-- The inner tokens of the trees on the output. -/
def inner (output : List Tree) : Multiset Token := (output.map Tree.inner).sum

/-- No entry of the output is the absence of a tree. -/
def Grown (output : List Tree) : Prop := ∀ x ∈ output, x.isNil = false

/-- Reading tokens, the machine gets from one state to another.  Operands become leaves in their
order.  What has come to wait still waits, or is an inner token, or was closed. -/
structure Keeps (m : Machine) (ts : List Token) (m' : Machine) : Prop where
  grown : Grown m'.output
  leaves : leaves m'.output = leaves m.output ++ ts.filter Token.isOperand
  /-- Only a token with an operator becomes an inner token. -/
  joined : ∀ t ∈ inner m'.output, t ∈ inner m.output ∨ t.operator?.isSome = true
  held : ∃ closed : Multiset Token, (∀ t ∈ closed, t.isOpen = true) ∧
    closed.card = ts.countP Token.endsGroup ∧
    inner m'.output + m'.waiting + closed = inner m.output + m.waiting + ts.filter Token.waits

variable {m m' m'' : Machine} {t : Token} {ts us waiting : List Token} {x y : Tree}
  {output output' : List Tree} {incoming : Operator}

@[simp] theorem leaves_cons : leaves (x :: output) = leaves output ++ x.leaves := by
  simp [leaves]

@[simp] theorem inner_cons : inner (x :: output) = x.inner + inner output := by
  simp [inner]

theorem Keeps.refl (h : Grown m.output) : Keeps m [] m :=
  ⟨h, by simp, fun _ ht => .inl ht, 0, by simp⟩

/-- What is read first and what is read then is read together. -/
theorem Keeps.trans (h : Keeps m ts m') (h' : Keeps m' us m'') : Keeps m (ts ++ us) m'' := by
  obtain ⟨closed, hopen, hcard, hheld⟩ := h.held
  obtain ⟨closed', hopen', hcard', hheld'⟩ := h'.held
  refine ⟨h'.grown, ?_, fun t ht => ?_, closed + closed', ?_, ?_, ?_⟩
  · rw [h'.leaves, h.leaves, List.filter_append, List.append_assoc]
  · rcases h'.joined t ht with ht | ht
    · exact h.joined t ht
    · exact .inr ht
  · intro t ht
    exact (Multiset.mem_add.mp ht).elim (hopen t) (hopen' t)
  · rw [Multiset.card_add, hcard, hcard', List.countP_append]
  · rw [List.filter_append, ← Multiset.coe_add]
    calc inner m''.output + m''.waiting + (closed + closed')
        = (inner m''.output + m''.waiting + closed') + closed := by abel
      _ = (inner m'.output + m'.waiting + us.filter Token.waits) + closed := by rw [hheld']
      _ = (inner m'.output + m'.waiting + closed) + us.filter Token.waits := by abel
      _ = inner m.output + m.waiting + ts.filter Token.waits + us.filter Token.waits := by
          rw [hheld]
      _ = inner m.output + m.waiting + (ts.filter Token.waits + us.filter Token.waits) := by abel

/-! ## Functions of the machine -/

/-- Joining puts a tree over one operand, or over two, under a token with an operator. -/
theorem reduce_cases (h : reduce t output = .ok output') :
    t.operator?.isSome = true ∧
      ((∃ x rest, output = x :: rest ∧ output' = .node t x .nil :: rest) ∨
        ∃ x y rest, output = y :: x :: rest ∧ output' = .node t x y :: rest) := by
  unfold reduce at h
  split at h
  case h_1 => cases h
  case h_2 op hop =>
      refine ⟨by rw [hop]; rfl, ?_⟩
      split at h
      case h_1 => exact .inl ⟨_, _, rfl, (push_eq_ok h).2⟩
      case h_2 => exact .inr ⟨_, _, _, rfl, (push_eq_ok h).2⟩
      case h_3 => cases h
      case h_4 => cases h
      case h_5 => cases h

/-- An operator goes from the stack into a tree. -/
theorem keeps_reduce (hgrown : Grown output) (h : reduce t output = .ok output')
    (waiting : List Token) : Keeps ⟨output, t :: waiting⟩ [] ⟨output', waiting⟩ := by
  obtain ⟨hop, ⟨x, rest, rfl, rfl⟩ | ⟨x, y, rest, rfl, rfl⟩⟩ := reduce_cases h
  · obtain ⟨hx, hrest⟩ := List.forall_mem_cons.mp hgrown
    have hinner : (Tree.node t x .nil).inner = {t} + x.inner := by
      rw [Tree.inner_node hx, Tree.inner, add_zero]
    refine ⟨List.forall_mem_cons.mpr ⟨rfl, hrest⟩, ?_, fun u hu => ?_, 0, by simp, rfl, ?_⟩
    · simp [Tree.leaves_node hx, Tree.leaves.eq_1]
    · simp only [inner_cons, hinner, Multiset.mem_add, Multiset.mem_singleton] at hu ⊢
      rcases hu with (rfl | hu) | hu
      · exact .inr hop
      · exact .inl (.inl hu)
      · exact .inl (.inr hu)
    · simp only [inner_cons, hinner, ← Multiset.cons_coe, ← Multiset.singleton_add,
        List.filter_nil, Multiset.coe_nil]
      abel
  · obtain ⟨hy, hrest⟩ := List.forall_mem_cons.mp hgrown
    obtain ⟨hx, hrest⟩ := List.forall_mem_cons.mp hrest
    refine ⟨List.forall_mem_cons.mpr ⟨rfl, hrest⟩, ?_, fun u hu => ?_, 0, by simp, rfl, ?_⟩
    · simp [Tree.leaves_node hx]
    · simp only [inner_cons, Tree.inner_node hx, Multiset.mem_add, Multiset.mem_singleton] at hu ⊢
      rcases hu with (rfl | hu | hu) | hu
      · exact .inr hop
      · exact .inl (.inr (.inl hu))
      · exact .inl (.inl hu)
      · exact .inl (.inr (.inr hu))
    · simp only [inner_cons, Tree.inner_node hx, ← Multiset.cons_coe, ← Multiset.singleton_add,
        List.filter_nil, Multiset.coe_nil]
      abel

/-- Yielding operators go into trees. -/
theorem keeps_yield (hgrown : Grown output) (h : yield incoming waiting output = .ok m) :
    Keeps ⟨output, waiting⟩ [] m := by
  fun_induction yield incoming waiting output with
  | case1 =>
      cases h
      exact .refl hgrown
  | case2 =>
      cases h
      exact .refl hgrown
  | case3 _ rest _ _ _ _ ih =>
      obtain ⟨output', hreduce, h⟩ := ok_of_bind h
      have hkeeps := keeps_reduce hgrown hreduce rest
      exact hkeeps.trans (ih output' hkeeps.grown h)
  | case4 =>
      cases h
      exact .refl hgrown

/-- The end of a group is the end of the parenthesis that opens it. -/
theorem keeps_close (hgrown : Grown output) (ht : t.endsGroup = true)
    (h : close waiting output = .ok m) : Keeps ⟨output, waiting⟩ [t] m := by
  obtain ⟨hkind, hclosing⟩ := Bool.and_eq_true_iff.mp ht
  obtain ⟨hoperand, hoperator⟩ := Token.neither_of_parenthesis (of_decide_eq_true hkind)
  fun_induction close waiting output with
  | case1 => cases h
  | case2 top waiting output htop =>
      cases h
      refine ⟨hgrown, by simp [hoperand], fun _ hu => .inl hu, {top}, by simpa using htop,
        by simp [ht], ?_⟩
      have hwaits : t.waits = false := by simp_all [Token.waits]
      simp only [hwaits, List.filter_cons, List.filter_nil, Bool.false_eq_true, if_false,
        ← Multiset.cons_coe, ← Multiset.singleton_add, Multiset.coe_nil]
      abel
  | case3 _ rest _ _ ih =>
      obtain ⟨output', hreduce, h⟩ := ok_of_bind h
      have hkeeps := keeps_reduce hgrown hreduce rest
      exact hkeeps.trans (ih output' hkeeps.grown h)

/-- At the end, everything that waits goes into a tree. -/
theorem keeps_drain (hgrown : Grown output) (h : drain waiting output = .ok output') :
    Keeps ⟨output, waiting⟩ [] ⟨output', []⟩ := by
  fun_induction drain waiting output with
  | case1 =>
      cases h
      exact .refl hgrown
  | case2 => cases h
  | case3 _ rest _ _ ih =>
      obtain ⟨output'', hreduce, h⟩ := ok_of_bind h
      have hkeeps := keeps_reduce hgrown hreduce rest
      exact hkeeps.trans (ih output'' hkeeps.grown h)

/-- An operator or an opening parenthesis comes to wait. -/
theorem keeps_wait (hgrown : Grown output) (ht : t.waits = true) :
    Keeps ⟨output, waiting⟩ [t] ⟨output, t :: waiting⟩ := by
  have hoperand : t.isOperand = false := by
    rcases Bool.or_eq_true_iff.mp ht with ht | ht
    · exact Token.isOperand_of_isOperator ht
    · exact (Token.neither_of_parenthesis (Token.kind_of_isOpen ht)).1
  have hends : t.endsGroup = false := by
    rcases Bool.or_eq_true_iff.mp ht with ht | ht
    · refine Bool.eq_false_iff.mpr fun h => ?_
      have hkind := of_decide_eq_true (Bool.and_eq_true_iff.mp h).1
      rw [(Token.neither_of_parenthesis hkind).2] at ht
      cases ht
    · simp [Token.endsGroup, ht]
  refine ⟨hgrown, by simp [hoperand], fun _ hu => .inl hu, 0, by simp, by simp [hends], ?_⟩
  simp only [ht, List.filter_cons, List.filter_nil, if_true, ← Multiset.cons_coe,
    ← Multiset.singleton_add, Multiset.coe_nil]
  abel

/-- What reading one token does. -/
theorem keeps_step (hgrown : Grown m.output) (h : m.step t = .ok m') : Keeps m [t] m' := by
  cases hkind : t.kind with
  | path | constant =>
      simp only [step, hkind] at h
      cases h
      have hoperand : t.isOperand = true := by simp [Token.isOperand, hkind]
      have hends : t.endsGroup = false := by simp [Token.endsGroup, hkind]
      have hwaits : t.waits = false := by
        simp [Token.waits, Token.isOperator, Token.isOpen, hkind]
      refine ⟨List.forall_mem_cons.mpr ⟨rfl, hgrown⟩, by simp [hoperand], fun _ hu => .inl ?_, 0,
        by simp, by simp [hends], by simp [hwaits]⟩
      simpa using hu
  | relational | logical =>
      simp only [step, hkind] at h
      split at h
      case h_1 => cases h
      case h_2 =>
          obtain ⟨next, hyield, h⟩ := ok_of_bind h
          cases h
          have hkeeps := keeps_yield hgrown hyield
          have hwaits : t.waits = true := by simp [Token.waits, Token.isOperator, hkind]
          exact hkeeps.trans (keeps_wait hkeeps.grown hwaits)
  | parenthesis =>
      simp only [step, hkind] at h
      split at h
      case isTrue hopen =>
          cases h
          exact keeps_wait hgrown (by simp [Token.waits, hopen])
      case isFalse hopen => exact keeps_close hgrown (by simp [Token.endsGroup, hkind, hopen]) h
  | nestedPath =>
      simp only [step, hkind] at h
      cases h

/-- What reading tokens does. -/
theorem keeps_run (hgrown : Grown m.output) (h : m.run ts = .ok m') : Keeps m ts m' := by
  induction ts generalizing m with
  | nil =>
      cases h
      exact .refl hgrown
  | cons t rest ih =>
      rw [run] at h
      obtain ⟨next, hstep, h⟩ := ok_of_bind h
      have hkeeps := keeps_step hgrown hstep
      exact hkeeps.trans (ih hkeeps.grown h)

/-- The run of a parse keeps what it reads in the one tree that it leaves. -/
theorem keeps_of_parse {flat : List Token} (hrun : run {} flat = .ok m)
    (hdrain : drain m.waiting m.output = .ok [x]) : Keeps {} flat ⟨[x], []⟩ := by
  have hkeeps : Keeps {} flat m := keeps_run (fun _ hx => absurd hx List.not_mem_nil) hrun
  have hall := hkeeps.trans (keeps_drain hkeeps.grown hdrain)
  rwa [List.append_nil] at hall

end Machine

/-! ## What waits -/

/-- A token that waits is an operator or opens a group, and not both. -/
theorem Token.isOperator_iff_of_waits {t : Token} (ht : t.waits = true) :
    t.isOperator = true ↔ ¬ t.isOpen = true := by
  constructor
  · intro hoperator hopen
    rw [(neither_of_parenthesis (kind_of_isOpen hopen)).2] at hoperator
    cases hoperator
  · intro hopen
    exact (Bool.or_eq_true_iff.mp ht).resolve_right hopen

/-- A kind of tokens that wait can be looked for among those that wait. -/
theorem filter_waits {p : Token → Bool} (hp : ∀ t : Token, p t = true → t.waits = true)
    (ts : List Token) :
    ((ts.filter Token.waits : List Token) : Multiset Token).filter (p · = true) =
      ts.filter p := by
  rw [Multiset.filter_coe, List.filter_filter]
  refine congrArg _ (List.filter_congr fun t _ => ?_)
  cases hpt : p t with
  | false => rfl
  | true => simp [hp t hpt]

/-- If what waits is in a tree or has been closed, and only opening parentheses are closed, then the
operators are all in the tree. -/
theorem filter_isOperator {inner closed : Multiset Token} {flat : List Token}
    (hopen : ∀ t ∈ closed, t.isOpen = true)
    (hheld : inner + closed = flat.filter Token.waits) :
    inner.filter (·.isOperator = true) = flat.filter Token.isOperator := by
  have hnone : closed.filter (·.isOperator = true) = 0 :=
    Multiset.filter_eq_nil.mpr fun t ht => by
      simp [(Token.neither_of_parenthesis (Token.kind_of_isOpen (hopen t ht))).2]
  rw [← filter_waits (by simp +contextual [Token.waits]), ← hheld, Multiset.filter_add, hnone,
    add_zero]

/-- An opening parenthesis is in the tree or has been closed. -/
theorem filter_isOpen {inner closed : Multiset Token} {flat : List Token}
    (hopen : ∀ t ∈ closed, t.isOpen = true)
    (hheld : inner + closed = flat.filter Token.waits) :
    inner.filter (·.isOpen = true) + closed = flat.filter Token.isOpen := by
  rw [← filter_waits (by simp +contextual [Token.waits]), ← hheld, Multiset.filter_add,
    Multiset.filter_eq_self.mpr hopen]

/-- Tokens that wait are operators and opening parentheses. -/
theorem eq_operators_add_opens {inner : Multiset Token} (h : ∀ t ∈ inner, t.waits = true) :
    inner = inner.filter (·.isOperator = true) + inner.filter (·.isOpen = true) := by
  conv_lhs => rw [← Multiset.filter_add_not (·.isOpen = true) inner]
  rw [add_comm]
  refine congrArg (· + _) (Multiset.filter_congr fun t ht => ?_)
  exact (Token.isOperator_iff_of_waits (h t ht)).symm

/-- The tree of a parse has the operands of the flat tokens as leaves, in their order.  Its inner
tokens are their operators and, one for each group that is opened and not closed, opening
parentheses that carry an operator. -/
theorem conserves_of_parse {ts : List Token} {x : Tree} (h : parse ts = .ok x) :
    ∃ flat taken, splice ts = .ok flat ∧ Conserves flat taken x := by
  obtain ⟨flat, m, hflat, hrun, hdrain, _⟩ := parse_cases h
  obtain ⟨_, hleaves, hjoined, closed, hopen, hcard, hheld⟩ := Machine.keeps_of_parse hrun hdrain
  have hleaves : x.leaves = flat.filter Token.isOperand := by
    simpa [Machine.leaves] using hleaves
  have hheld : x.inner + closed = flat.filter Token.waits := by
    simpa [Machine.inner] using hheld
  have hwaits : ∀ t ∈ x.inner, t.waits = true := by
    intro t ht
    have hmem : t ∈ x.inner + closed := Multiset.mem_add.mpr (.inl ht)
    rw [hheld] at hmem
    exact (List.mem_filter.mp (Multiset.mem_coe.mp hmem)).2
  have hsome : ∀ t ∈ x.inner, t.operator?.isSome = true := by
    intro t ht
    simpa [Machine.inner] using hjoined t (by simpa [Machine.inner] using ht)
  have hopens := filter_isOpen hopen hheld
  have hparts : x.inner = flat.filter Token.isOperator + x.inner.filter (·.isOpen = true) := by
    rw [← filter_isOperator hopen hheld]
    exact eq_operators_add_opens hwaits
  refine ⟨flat, x.inner.filter (·.isOpen = true), hflat, hleaves, hparts, ?_, ?_, ?_, ?_⟩
  · have hle : x.inner.filter (·.isOpen = true) ≤ flat.filter Token.isOpen :=
      le_of_le_of_eq (Multiset.le_add_right _ closed) hopens
    have hself : (x.inner.filter (·.isOpen = true)).filter (·.operator?.isSome = true) =
        x.inner.filter (·.isOpen = true) :=
      Multiset.filter_eq_self.mpr fun t ht => hsome t (Multiset.mem_of_mem_filter ht)
    rw [← hself]
    refine (Multiset.filter_le_filter _ hle).trans_eq ?_
    simp [Multiset.filter_coe, List.filter_filter, Bool.and_comm]
  · rw [← hcard, ← Multiset.card_add, hopens, Multiset.coe_card, List.countP_eq_length_filter]
  · rw [← x.length_leaves, hleaves, List.countP_eq_length_filter]
  · have hcards := congrArg Multiset.card hparts
    rwa [Multiset.card_add, Multiset.coe_card, ← List.countP_eq_length_filter, x.card_inner]
      at hcards

/-- A presence test beside a bracket, which is spliced to a group that is closed again. -/
theorem conserves_of_parse_bracket :
    let work : Token := ⟨"\"work\"", .constant, .constant (.string "work")⟩
    let ts : List Token := [.path "title", .ofOperator "pr" .pr, .ofOperator "and" .and,
      .withFilter "emails" [.path "type", .ofOperator "eq" .eq, work]]
    let flat : List Token := [.path "title", .ofOperator "pr" .pr, .ofOperator "and" .and,
      .parenthesis true, .path "emails.type", .ofOperator "eq" .eq, work, .parenthesis false]
    ∃ x, parse ts = .ok x ∧ splice ts = .ok flat ∧ Conserves flat 0 x := by
  intro work ts flat
  obtain ⟨x, hx⟩ : ∃ x, parse ts = .ok x := ⟨_, rfl⟩
  have hflat : splice ts = .ok flat := rfl
  obtain ⟨flat', taken, hflat', hconserves⟩ := conserves_of_parse hx
  obtain rfl : flat = flat' := Except.ok.inj (hflat.symm.trans hflat')
  have hopened : taken.card + 1 = 1 := hconserves.opened
  obtain rfl : taken = 0 := Multiset.card_eq_zero.mp (by omega)
  exact ⟨x, hx, hflat, hconserves⟩

/-- An opening parenthesis that carries `not` is joined like an operator, and its group is never
closed. -/
theorem parse_unclosed :
    let ts : List Token := [⟨"(", .parenthesis, .operator .not⟩, .path "title",
      .ofOperator "pr" .pr, .ofOperator "or" .or, .path "userName", .ofOperator "pr" .pr]
    ∃ x, parse ts = .ok x ∧ splice ts = .ok ts ∧
      x.inner ≠ (ts.filter Token.isOperator : Multiset Token) ∧
      x.innerCount ≠ ts.countP Token.isOperator := by
  intro ts
  have hparse : (parse ts).map Tree.innerCount = .ok 4 := rfl
  obtain ⟨x, hx, hcount⟩ := ok_of_map hparse
  have hne : x.innerCount ≠ ts.countP Token.isOperator := by
    rw [hcount]
    decide
  refine ⟨x, hx, rfl, fun hinner => hne ?_, hne⟩
  rw [← x.card_inner, hinner, Multiset.coe_card, List.countP_eq_length_filter]

end Scim.Filter
