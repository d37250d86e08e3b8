import Scim.Proofs.Filter.Grammar

/-!
# Operator precedence

The stack machine finds the tree that the grammar assigns.

`Machine.complete` is what the machine makes of the tokens that are left.  The main lemma,
`complete_of_derives`, says that reading the tokens of a derivation amounts to putting its tree on
the output, or to an error if the tree is too high.  It holds in front of all tokens that may
follow a filter of that level and on top of everything that may wait there.

* What *waits* before a filter binds more loosely than its operators, so it stays on the stack
  while they come and go.
* What *follows* a filter makes its last operator take its operands, be it the end, a closing
  parenthesis or an operator that binds no tighter (`Machine.complete_settle`).

The induction is on the derivation.  Its cases read one terminal each and settle one operator.
-/

namespace Scim.Filter

namespace Operator

theorem yieldsTo_of_left {incoming stacked : Operator} (h : incoming.associativity = .left) :
    incoming.yieldsTo stacked = decide (incoming.precedence ≤ stacked.precedence) := by
  rw [yieldsTo, h]

theorem yieldsTo_of_right {incoming stacked : Operator} (h : incoming.associativity = .right) :
    incoming.yieldsTo stacked = decide (incoming.precedence < stacked.precedence) := by
  rw [yieldsTo, h]

/-- No relational operator groups to the right, and all bind equally tightly. -/
theorem precedence_of_relational {op : Operator} (h : op.isLogical = false) :
    op.associativity = .left ∧ op.precedence = 4 := by
  cases op with
  | and => cases h
  | or => cases h
  | not => cases h
  | _ => exact ⟨rfl, rfl⟩

theorem arity_of_relational {op : Operator} (h : op.isLogical = false) (hpr : op ≠ .pr) :
    op.arity = 2 := by
  cases op with
  | and => cases h
  | or => cases h
  | not => cases h
  | pr => exact absurd rfl hpr
  | _ => rfl

end Operator

theorem Tree.height_left_le (t : Token) (l r : Tree) : l.height ≤ (Tree.node t l r).height := by
  rw [Tree.height]
  omega

theorem Tree.height_right_le (t : Token) (l r : Tree) : r.height ≤ (Tree.node t l r).height := by
  rw [Tree.height]
  omega

namespace Machine

variable {m : Machine} {t : Token} {op : Operator} {waiting rest : List Token}
  {output : List Tree}

/-! ## The tokens that are left -/

/-- What the machine makes of the tokens that are left. -/
def complete (m : Machine) (ts : List Token) : Except Error Tree := do
  let last ← m.run ts
  last.finish

theorem complete_nil (m : Machine) : m.complete [] = m.finish := rfl

theorem complete_cons (m : Machine) (t : Token) (rest : List Token) :
    m.complete (t :: rest) = (m.step t >>= fun next => next.complete rest) := by
  rw [complete, run]
  cases m.step t with
  | error e => rfl
  | ok next => rfl

/-- The error of a tree that is too high, or else what comes of it. -/
def unlessTooDeep (x : Tree) (next : Except Error Tree) : Except Error Tree :=
  if maxDepth < x.height then .error (.tooDeep maxDepth) else next

theorem push_bind (x : Tree) (output : List Tree) (f : List Tree → Except Error Tree) :
    (push x output >>= f) = unlessTooDeep x (f (x :: output)) := by
  rw [push, unlessTooDeep]
  split
  · rfl
  · rfl

/-- A part that is too high makes the whole too high. -/
theorem unlessTooDeep_unlessTooDeep {x y : Tree} (h : x.height ≤ y.height)
    (next : Except Error Tree) :
    unlessTooDeep x (unlessTooDeep y next) = unlessTooDeep y next := by
  rw [unlessTooDeep]
  split
  case isTrue hx => rw [unlessTooDeep, if_pos (Nat.lt_of_lt_of_le hx h)]
  case isFalse => rfl

/-! ## One token -/

theorem step_operand (h : t.kind = .path ∨ t.kind = .constant) :
    m.step t = .ok { m with output := .leaf t :: m.output } := by
  rcases h with h | h
  · simp only [step, h]
  · simp only [step, h]

theorem step_operator (h : t.IsOperator op) :
    m.step t = (yield op m.waiting m.output >>= fun next =>
      .ok { next with waiting := t :: next.waiting }) := by
  rcases h.kind_cases with hk | hk
  · simp only [step, hk, h.operator]
  · simp only [step, hk, h.operator]

theorem step_open :
    m.step (.parenthesis true) = .ok { m with waiting := .parenthesis true :: m.waiting } := rfl

theorem step_close : m.step (.parenthesis false) = close m.waiting m.output := rfl

/-- An operator that nothing on top of the stack binds more tightly than starts to wait. -/
theorem step_operator_of_stays (h : t.IsOperator op)
    (hw : ∀ top ∈ waiting.head?, ∀ stacked, top.operator? = some stacked →
      op.yieldsTo stacked = false) :
    step ⟨output, waiting⟩ t = .ok ⟨output, t :: waiting⟩ := by
  have hyield : yield op waiting output = .ok ⟨output, waiting⟩ := by
    cases waiting with
    | nil => rfl
    | cons top below =>
        rw [yield]
        cases htop : top.operator? with
        | none => rfl
        | some stacked =>
            have hstays := hw top rfl stacked htop
            simp only [hstays, Bool.false_eq_true, if_false]
  rw [step_operator h, hyield]
  rfl

/-- An operator without a parenthesis' kind opens no group. -/
theorem isOpen_of_isOperator (h : t.IsOperator op) : t.isOpen = false := by
  have hk : t.kind ≠ .parenthesis := h.kind_ne
  rw [Token.isOpen, decide_eq_false hk, Bool.false_and]

/-! ## Settling an operator -/

/-- The tokens that are left make an operator on top of the stack take its operands. -/
def Settles (op : Operator) : List Token → Prop
  | [] => True
  | t :: _ =>
      t = .parenthesis false ∨
        ∃ incoming, t.IsOperator incoming ∧ incoming.yieldsTo op = true

/-- The newest waiting operator takes its operands before anything else happens. -/
theorem complete_settle (h : t.IsOperator op) (hrest : Settles op rest) :
    complete ⟨output, t :: waiting⟩ rest =
      (reduce t output >>= fun next => complete ⟨next, waiting⟩ rest) := by
  cases rest with
  | nil =>
      have hk : t.kind ≠ .parenthesis := h.kind_ne
      rw [complete_nil, finish, drain, if_neg hk]
      cases reduce t output with
      | error e => rfl
      | ok next => rfl
  | cons u rest =>
      rw [complete_cons]
      rcases hrest with rfl | ⟨incoming, hu, hyields⟩
      · have hopen : ¬t.isOpen = true := by simp [isOpen_of_isOperator h]
        rw [step_close, close, if_neg hopen]
        cases reduce t output with
        | error e => rfl
        | ok next =>
            show _ = complete ⟨next, waiting⟩ (.parenthesis false :: rest)
            rw [complete_cons]
            rfl
      · rw [step_operator hu, yield, h.operator]
        simp only [hyields, if_true]
        cases reduce t output with
        | error e => rfl
        | ok next =>
            show _ = complete ⟨next, waiting⟩ (u :: rest)
            rw [complete_cons, step_operator hu]
            rfl

/-- An operator with one operand joins it. -/
theorem complete_settle_unary {x : Tree} (h : t.IsOperator op) (ha : op.arity = 1)
    (hrest : Settles op rest) :
    complete ⟨x :: output, t :: waiting⟩ rest =
      unlessTooDeep (.node t x .nil) (complete ⟨.node t x .nil :: output, waiting⟩ rest) := by
  have hreduce : reduce t (x :: output) = push (.node t x .nil) output := by
    simp only [reduce, h.operator, ha]
  rw [complete_settle h hrest, hreduce, push_bind]

/-- An operator with two operands joins them. -/
theorem complete_settle_binary {x y : Tree} (h : t.IsOperator op) (ha : op.arity = 2)
    (hrest : Settles op rest) :
    complete ⟨y :: x :: output, t :: waiting⟩ rest =
      unlessTooDeep (.node t x y) (complete ⟨.node t x y :: output, waiting⟩ rest) := by
  have hreduce : reduce t (y :: x :: output) = push (.node t x y) output := by
    simp only [reduce, h.operator, ha]
  rw [complete_settle h hrest, hreduce, push_bind]

end Machine

/-! ## What stands around a filter -/

namespace Level

/-- How tightly an operator may bind that waits before a filter of the level. -/
def before : Level → Nat
  | unit => 3
  | conjunction => 1
  | expression => 0

/-- How tightly an operator may bind that follows a filter of the level. -/
def after : Level → Nat
  | unit => 2
  | conjunction => 2
  | expression => 1

/-- The newest waiting token may stand before a filter of the level. -/
def Waits (level : Level) (waiting : List Token) : Prop :=
  ∀ top ∈ waiting.head?, ∀ op, top.operator? = some op → op.precedence ≤ level.before

/-- The tokens that are left may follow a filter of the level. -/
def Follows (level : Level) : List Token → Prop
  | [] => True
  | t :: _ =>
      t = .parenthesis false ∨ ∃ op, t.IsOperator op ∧ op.precedence ≤ level.after

variable {level : Level} {waiting rest : List Token} {t : Token} {op : Operator}

theorem waits_nil (level : Level) : level.Waits [] := by
  intro top htop
  cases htop

theorem waits_open (level : Level) : level.Waits (.parenthesis true :: waiting) := by
  intro top htop op hop
  cases htop
  cases hop

theorem waits_operator (h : t.IsOperator op) (hle : op.precedence ≤ level.before) :
    level.Waits (t :: waiting) := by
  intro top htop op' hop'
  cases htop
  rw [h.operator] at hop'
  cases hop'
  exact hle

theorem Waits.mono {level' : Level} (h : level.Waits waiting) (hle : level.before ≤ level'.before) :
    level'.Waits waiting :=
  fun top htop op hop => Nat.le_trans (h top htop op hop) hle

theorem Follows.mono {level' : Level} (h : level.Follows rest) (hle : level.after ≤ level'.after) :
    level'.Follows rest := by
  cases rest with
  | nil => trivial
  | cons t rest =>
      rcases h with h | ⟨op, hop, hop'⟩
      · exact Or.inl h
      · exact Or.inr ⟨op, hop, Nat.le_trans hop' hle⟩

theorem follows_close (level : Level) : level.Follows (.parenthesis false :: rest) := Or.inl rfl

theorem follows_operator (h : t.IsOperator op) (hle : op.precedence ≤ level.after) :
    level.Follows (t :: rest) := Or.inr ⟨op, h, hle⟩

/-- What follows a filter settles every operator that binds at least as tightly. -/
theorem Follows.settles (h : level.Follows rest) (hle : level.after ≤ op.precedence) :
    Machine.Settles op rest := by
  cases rest with
  | nil => trivial
  | cons t rest =>
      rcases h with h | ⟨incoming, hin, hprec⟩
      · exact Or.inl h
      · refine Or.inr ⟨incoming, hin, ?_⟩
        have hafter : level.after ≤ 2 := by cases level <;> decide
        have hleft : incoming.associativity = .left := by
          cases incoming with
          | not => exact absurd (Nat.le_trans hprec hafter) (by decide)
          | _ => rfl
        rw [Operator.yieldsTo_of_left hleft]
        exact decide_eq_true (Nat.le_trans hprec hle)

/-- An operator that groups to the left and binds more tightly than what waits starts to wait. -/
theorem Waits.step_left {output : List Tree} (h : level.Waits waiting) (ht : t.IsOperator op)
    (hop : op.associativity = .left) (hlt : level.before < op.precedence) :
    Machine.step ⟨output, waiting⟩ t = .ok ⟨output, t :: waiting⟩ := by
  refine Machine.step_operator_of_stays ht fun top htop stacked hstacked => ?_
  have hle := h top htop stacked hstacked
  rw [Operator.yieldsTo_of_left hop]
  exact decide_eq_false (by omega)

/-- The same for an operator that groups to the right and binds as tightly as what waits. -/
theorem Waits.step_right {output : List Tree} (h : level.Waits waiting) (ht : t.IsOperator op)
    (hop : op.associativity = .right) (hle : level.before ≤ op.precedence) :
    Machine.step ⟨output, waiting⟩ t = .ok ⟨output, t :: waiting⟩ := by
  refine Machine.step_operator_of_stays ht fun top htop stacked hstacked => ?_
  have hle' := h top htop stacked hstacked
  rw [Operator.yieldsTo_of_right hop]
  exact decide_eq_false (by omega)

end Level

/-! ## Reading a derivation -/

open Machine Level

/-- Reading the tokens of a derivation puts its tree on the output, unless it is too high. -/
theorem complete_of_derives {level : Level} {b : Bool} {ts : List Token} {x : Tree}
    (h : Derives level b ts x) (hb : b = false) {output : List Tree} {waiting rest : List Token}
    (hw : level.Waits waiting) (hr : level.Follows rest) :
    complete ⟨output, waiting⟩ (ts ++ rest) =
      unlessTooDeep x (complete ⟨x :: output, waiting⟩ rest) := by
  induction h generalizing output waiting rest with
  | comparison hp ht hop hpr hc =>
      obtain ⟨hleft, hprec⟩ := Operator.precedence_of_relational hop
      simp only [List.cons_append, List.nil_append]
      rw [complete_cons, step_operand (Or.inl hp)]
      show complete _ _ = _
      rw [complete_cons, hw.step_left ht hleft (by rw [hprec]; decide)]
      show complete _ _ = _
      rw [complete_cons, step_operand (Or.inr hc)]
      show complete _ _ = _
      exact complete_settle_binary ht (Operator.arity_of_relational hop hpr)
        (hr.settles (by rw [hprec]; decide))
  | presence hp ht =>
      simp only [List.cons_append, List.nil_append]
      rw [complete_cons, step_operand (Or.inl hp)]
      show complete _ _ = _
      rw [complete_cons, hw.step_left ht rfl (by decide)]
      show complete _ _ = _
      exact complete_settle_unary ht rfl (hr.settles (by decide))
  | @negation b t ts x ht _ ih =>
      rw [List.cons_append, complete_cons, hw.step_right ht rfl (by decide)]
      show complete _ _ = _
      rw [ih hb (waits_operator ht (by decide)) hr,
        complete_settle_unary ht rfl (hr.settles (by decide))]
      exact unlessTooDeep_unlessTooDeep (Tree.height_left_le ..) _
  | @group b ts x _ ih =>
      rw [List.cons_append, List.append_assoc, complete_cons, step_open]
      show complete ⟨output, .parenthesis true :: waiting⟩
        (ts ++ .parenthesis false :: rest) = _
      rw [ih hb (waits_open _) (follows_close _)]
      rfl
  | bracket _ _ _ _ => exact absurd hb (by decide)
  | ofUnit _ ih => exact ih hb (hw.mono (by decide)) (hr.mono (by decide))
  | @and b ts us t x y _ ht _ ihx ihy =>
      rw [List.append_assoc, List.cons_append,
        ihx hb hw (follows_operator ht (by decide)), complete_cons,
        hw.step_left ht rfl (by decide)]
      show unlessTooDeep x (complete _ _) = _
      rw [ihy hb (waits_operator ht (by decide)) (hr.mono (by decide)),
        complete_settle_binary ht rfl (hr.settles (by decide)),
        unlessTooDeep_unlessTooDeep (Tree.height_right_le ..),
        unlessTooDeep_unlessTooDeep (Tree.height_left_le ..)]
  | ofConjunction _ ih => exact ih hb (hw.mono (by decide)) (hr.mono (by decide))
  | @or b ts us t x y _ ht _ ihx ihy =>
      rw [List.append_assoc, List.cons_append,
        ihx hb hw (follows_operator ht (by decide)), complete_cons,
        hw.step_left ht rfl (by decide)]
      show unlessTooDeep x (complete _ _) = _
      rw [ihy hb (waits_operator ht (by decide)) (hr.mono (by decide)),
        complete_settle_binary ht rfl (hr.settles (by decide)),
        unlessTooDeep_unlessTooDeep (Tree.height_right_le ..),
        unlessTooDeep_unlessTooDeep (Tree.height_left_le ..)]

/-- Reading the tokens of a derivation from the start on leaves its tree, unless it is too high. -/
theorem complete_of_flat {flat : List Token} {x : Tree} (h : Derives .expression false flat x) :
    Machine.complete {} flat = unlessTooDeep x (.ok x) := by
  have hread : Machine.complete {} (flat ++ []) = unlessTooDeep x (Machine.complete ⟨[x], []⟩ []) :=
    complete_of_derives h rfl (waits_nil _) trivial
  rwa [List.append_nil] at hread

/-- Parsing the tokens of a derivation gives exactly its tree, or the error of a tree that is
too high. -/
theorem parse_of_derives {brackets : Bool} {ts : List Token} {x : Tree}
    (h : Derives .expression brackets ts x) :
    parse ts = if maxDepth < x.height then .error (.tooDeep maxDepth) else .ok x := by
  obtain ⟨flat, hflat, hd⟩ := h.splice
  have hread : Machine.complete {} (flat ++ []) = unlessTooDeep x (Machine.complete ⟨[x], []⟩ []) :=
    complete_of_derives hd rfl (waits_nil _) trivial
  rw [List.append_nil, complete_nil] at hread
  have hcheck := hd.checkOperands rfl
  have hparse : parse ts = (Machine.complete {} flat >>= fun root =>
      root.checkOperands >>= fun _ => .ok root) := by
    rw [parse, hflat, Machine.complete, bind_assoc]
    rfl
  rw [hparse, hread, unlessTooDeep]
  split
  · rfl
  · show (x.checkOperands >>= fun _ => Except.ok x) = _
    rw [hcheck]
    rfl

/-- The tokens of `title pr or not active eq true and emails[type eq "work" or primary pr]`. -/
theorem parse_of_derives_mixed :
    parse
        [.path "title", .ofOperator "pr" .pr, .ofOperator "or" .or, .ofOperator "not" .not,
          .path "active", .ofOperator "eq" .eq, ⟨"true", .constant, .constant (.boolean true)⟩,
          .ofOperator "and" .and,
          .withFilter "emails"
            [.path "type", .ofOperator "eq" .eq,
              ⟨"\"work\"", .constant, .constant (.string "work")⟩, .ofOperator "or" .or,
              .path "primary", .ofOperator "pr" .pr]] =
      .ok
        (.node (.ofOperator "or" .or)
          (.node (.ofOperator "pr" .pr) (.leaf (.path "title")) .nil)
          (.node (.ofOperator "and" .and)
            (.node (.ofOperator "not" .not)
              (.node (.ofOperator "eq" .eq) (.leaf (.path "active"))
                (.leaf ⟨"true", .constant, .constant (.boolean true)⟩))
              .nil)
            (.node (.ofOperator "or" .or)
              (.node (.ofOperator "eq" .eq) (.leaf (.path "emails.type"))
                (.leaf ⟨"\"work\"", .constant, .constant (.string "work")⟩))
              (.node (.ofOperator "pr" .pr) (.leaf (.path "emails.primary")) .nil)))) := by
  have word := Token.isOperator_ofOperator
  have htitle : Derives .unit true [.path "title", .ofOperator "pr" .pr] _ :=
    .presence rfl (word "pr" .pr)
  have hactive : Derives .unit true
      [.path "active", .ofOperator "eq" .eq, ⟨"true", .constant, .constant (.boolean true)⟩] _ :=
    .comparison rfl (word "eq" .eq) rfl (by decide) rfl
  have htype : Derives .unit false
      [.path "type", .ofOperator "eq" .eq,
        ⟨"\"work\"", .constant, .constant (.string "work")⟩] _ :=
    .comparison rfl (word "eq" .eq) rfl (by decide) rfl
  have hprimary : Derives .unit false [.path "primary", .ofOperator "pr" .pr] _ :=
    .presence rfl (word "pr" .pr)
  have hinner := (Derives.ofConjunction htype.ofUnit).or (word "or" .or) hprimary.ofUnit
  have hemails := Derives.bracket (t := .withFilter "emails" _) rfl rfl hinner
  have hright := (Derives.negation (word "not" .not) hactive).ofUnit.and (word "and" .and) hemails
  have hall := (Derives.ofConjunction htitle.ofUnit).or (word "or" .or) hright
  exact (parse_of_derives hall).trans (if_neg (by decide))

end Scim.Filter
