import Scim.Proofs.Filter.Words

/-!
# Matching parentheses

The scanner yields tokens that are *well formed* (`WellFormed`): there is at least one, parentheses
match inside and outside of brackets, a bracket is never empty and holds no other bracket, and no
token but a path with a bracket has tokens of its own.

Behind such tokens the parser need not look at their structure again.  Some of its errors are about
nothing else (`Error.IsStructural`), and none of them is ever raised.  The argument goes through the
stack machine with `Ends`, which says of a computation that it gives a value with a property or an
error that is not structural.

* What waits on the stack is operators and opening parentheses, and there are as many of these as
  the tokens so far have left open (`Machine.HoldsOpen`).
* So a closing parenthesis finds the one that opens its group before the stack is empty, and the
  end of matching tokens finds operators only.
* Splicing puts a group in place of every bracket and leaves what is open as it was
  (`openAfter_splice`).
-/

namespace Scim.Filter

variable {t : Token} {ts us flat : List Token} {n k : Nat}

/-! ## Well-formed tokens -/

/-- Whether the token closes a group. -/
def Token.isClose (t : Token) : Bool := t.kind = .parenthesis && t.text == ")"

/-- No beginning of the tokens closes more groups than it opens, and the whole closes them all. -/
structure Balanced (ts : List Token) : Prop where
  along : ∀ front, front <+: ts → front.countP Token.isClose ≤ front.countP Token.isOpen
  whole : ts.countP Token.isClose = ts.countP Token.isOpen

/-- Tokens whose groups and brackets are in order. -/
structure WellFormed (ts : List Token) : Prop where
  nonempty : ts ≠ []
  balanced : Balanced ts
  /-- The tokens with tokens of their own are the paths with a bracket. -/
  nested_iff : ∀ t ∈ ts, (∃ inner, t.nested? = some inner) ↔ t.kind = .nestedPath
  /-- A bracket has tokens, its groups are in order, and it holds no other bracket. -/
  brackets : ∀ t ∈ ts, ∀ inner, t.nested? = some inner →
    inner ≠ [] ∧ Balanced inner ∧ ∀ u ∈ inner, u.kind ≠ .nestedPath ∧ u.nested? = none

namespace Token

theorem isOpen_of_ne (h : t.kind ≠ .parenthesis) : t.isOpen = false := by
  simp [isOpen, h]

theorem isClose_of_ne (h : t.kind ≠ .parenthesis) : t.isClose = false := by
  simp [isClose, h]

@[simp] theorem isClose_parenthesis (isOpen : Bool) : (parenthesis isOpen).isClose = !isOpen := by
  cases isOpen <;> rfl

@[simp] theorem isOpen_parenthesis (isOpen : Bool) : (parenthesis isOpen).isOpen = isOpen := by
  cases isOpen <;> rfl

/-- An operator opens no group. -/
theorem IsOperator.isOpen_eq {op : Operator} (h : t.IsOperator op) : t.isOpen = false :=
  isOpen_of_ne h.kind_ne

/-- Only a path with a bracket has tokens of its own. -/
theorem Atom.nested?_eq_none (h : t.Atom) : t.nested? = none := by
  cases h <;> rfl

theorem Scanned.nested_iff (h : t.Scanned) :
    (∃ inner, t.nested? = some inner) ↔ t.kind = .nestedPath := by
  cases h with
  | atom h => simp [h.nested?_eq_none, h.kind_ne_nestedPath]
  | bracket => exact iff_of_true ⟨_, rfl⟩ rfl

end Token

/-- What tokens leave open is what they open without what they close. -/
theorem count_of_openAfter (hts : ∀ t ∈ ts, t.Scanned) (h : openAfter n ts = some k) :
    k + ts.countP Token.isClose = n + ts.countP Token.isOpen := by
  induction ts generalizing n with
  | nil =>
      cases h
      rfl
  | cons t rest ih =>
      obtain ⟨ht, hrest⟩ := List.forall_mem_cons.mp hts
      rw [List.countP_cons, List.countP_cons]
      by_cases hkind : t.kind = .parenthesis
      · obtain ⟨isOpen, rfl⟩ := (ht.toAtom (by simp [hkind])).eq_parenthesis hkind
        rw [Token.isClose_parenthesis, Token.isOpen_parenthesis]
        cases isOpen with
        | true =>
            have hcount := ih hrest h
            simp only [Bool.not_true, Bool.false_eq_true, if_false, if_true]
            omega
        | false =>
            cases n with
            | zero => cases h
            | succ n =>
                have hcount := ih hrest h
                simp only [Bool.not_false, Bool.false_eq_true, if_false, if_true]
                omega
      · rw [openAfter_cons_of_ne hkind] at h
        rw [Token.isClose_of_ne hkind, Token.isOpen_of_ne hkind]
        simpa using ih hrest h

/-- Tokens that leave nothing open are balanced. -/
theorem balanced_of_openAfter (hts : ∀ t ∈ ts, t.Scanned) (h : openAfter 0 ts = some 0) :
    Balanced ts := by
  constructor
  · rintro front ⟨back, rfl⟩
    rw [openAfter_append] at h
    obtain ⟨j, hfront, _⟩ := Option.bind_eq_some_iff.mp h
    have hcount := count_of_openAfter (List.forall_mem_append.mp hts).1 hfront
    omega
  · have hcount := count_of_openAfter hts h
    omega

/-! ## Splicing -/

/-- Groups that are open before the tokens stay open. -/
theorem openAfter_add (j : Nat) (h : openAfter n ts = some k) :
    openAfter (n + j) ts = some (k + j) := by
  fun_induction openAfter n ts with
  | case1 =>
      cases h
      rfl
  | case2 n t rest hkind ih => rw [openAfter, if_pos hkind, ih h]
  | case3 n t rest hkind hopen ih =>
      rw [openAfter, if_neg hkind, if_pos hopen, Nat.add_right_comm, ih h]
  | case4 => cases h
  | case5 n t rest hkind hopen hne ih =>
      rw [openAfter, if_neg hkind, if_neg hopen, if_neg (by omega), Nat.sub_add_comm (by omega),
        ih h]

theorem Token.isOpen_under (outer : String) : (t.under outer).isOpen = t.isOpen := by
  by_cases hkind : t.kind = .path
  · have hsame : t.isOpen = false := isOpen_of_ne (by simp [hkind])
    rw [Token.under_of_path hkind, hsame]
    rfl
  · rw [Token.under_of_ne hkind]

/-- A path in front of paths opens and closes nothing. -/
theorem openAfter_map_under (outer : String) :
    openAfter n (ts.map (Token.under outer)) = openAfter n ts := by
  induction ts generalizing n with
  | nil => rfl
  | cons t rest ih =>
      simp only [List.map_cons, openAfter, Token.kind_under, Token.isOpen_under, ih]

/-- Spliced tokens leave open what the tokens leave open. -/
theorem openAfter_splice (hts : ∀ t ∈ ts, t.Scanned) (h : splice ts = .ok flat) :
    openAfter n flat = openAfter n ts := by
  induction ts generalizing n flat with
  | nil =>
      cases h
      rfl
  | cons t rest ih =>
      obtain ⟨ht, hrest⟩ := List.forall_mem_cons.mp hts
      obtain ⟨front, hfront, h⟩ := ok_of_bind h
      obtain ⟨back, hback, h⟩ := ok_of_bind h
      cases h
      cases ht with
      | atom ht =>
          rw [spliceToken, if_neg ht.kind_ne_nestedPath] at hfront
          cases hfront
          simp only [List.singleton_append, openAfter, ih hrest hback]
      | @bracket name inner _ hinner hclosed =>
          have hne : ∀ u ∈ inner, u.kind ≠ .nestedPath :=
            fun u hu => (hinner u hu).kind_ne_nestedPath
          rw [spliceToken_bracket (t := .withFilter name inner) rfl rfl hne] at hfront
          cases hfront
          have hgroup : openAfter (n + 1) inner = some (n + 1) := by
            have hadd := openAfter_add (n + 1) hclosed
            rwa [Nat.zero_add] at hadd
          have hkind : (Token.withFilter name inner).kind ≠ .parenthesis :=
            show Token.Kind.nestedPath ≠ .parenthesis by decide
          rw [openAfter_cons_of_ne hkind, List.append_assoc, List.cons_append, openAfter_open,
            openAfter_append, openAfter_map_under]
          show (openAfter (n + 1) inner).bind _ = _
          rw [hgroup, ← ih hrest hback]
          rfl

/-! ## Errors about structure -/

/-- An error that says that groups and brackets are not in order, or that an operator has a number
of operands that no operator has. -/
def Error.IsStructural : Error → Prop
  | mismatchedParenthesis => True
  | nestingTooDeep _ => True
  | danglingFilter _ => True
  | unsupportedArity _ _ => True
  | _ => False

section

variable {α β : Type} {P : α → Prop} {Q : β → Prop} {v : α} {e : Error}

/-- The computation gives a value with a property, or an error that is not structural. -/
def Ends (P : α → Prop) : Except Error α → Prop
  | .ok v => P v
  | .error e => ¬ e.IsStructural

@[simp] theorem ends_ok : Ends P (.ok v) ↔ P v := Iff.rfl

@[simp] theorem ends_error : Ends P (.error e : Except Error α) ↔ ¬ e.IsStructural := Iff.rfl

theorem Ends.bind {x : Except Error α} {f : α → Except Error β} (h : Ends P x)
    (hf : ∀ v, P v → Ends Q (f v)) : Ends Q (x >>= f) := by
  cases x with
  | error e => exact h
  | ok v => exact hf v h

end

namespace Machine

variable {m : Machine} {waiting : List Token} {output : List Tree} {incoming : Operator}

/-! ## What waits -/

/-- What waits is operators and opening parentheses, `n` of these. -/
structure HoldsOpen (n : Nat) (waiting : List Token) : Prop where
  kinds : ∀ t ∈ waiting, (∃ op, t.IsOperator op) ∨ t = .parenthesis true
  count : waiting.countP Token.isOpen = n

/-- The top of the stack is an operator, or it opens the innermost group. -/
theorem HoldsOpen.top (h : HoldsOpen n (t :: waiting)) :
    (∃ op, t.IsOperator op ∧ HoldsOpen n waiting) ∨
      t = .parenthesis true ∧ ∃ k, n = k + 1 ∧ HoldsOpen k waiting := by
  obtain ⟨ht, hkinds⟩ := List.forall_mem_cons.mp h.kinds
  have hcount := h.count
  rw [List.countP_cons] at hcount
  rcases ht with ⟨op, hop⟩ | rfl
  · rw [hop.isOpen_eq] at hcount
    exact .inl ⟨op, hop, hkinds, hcount⟩
  · exact .inr ⟨rfl, _, hcount.symm, hkinds, rfl⟩

theorem HoldsOpen.operator {op : Operator} (h : HoldsOpen n waiting) (ht : t.IsOperator op) :
    HoldsOpen n (t :: waiting) :=
  ⟨List.forall_mem_cons.mpr ⟨.inl ⟨op, ht⟩, h.kinds⟩, by simp [ht.isOpen_eq, h.count]⟩

theorem HoldsOpen.opened (h : HoldsOpen n waiting) :
    HoldsOpen (n + 1) (.parenthesis true :: waiting) :=
  ⟨List.forall_mem_cons.mpr ⟨.inr rfl, h.kinds⟩, by simp [h.count]⟩

/-! ## One token -/

theorem ends_push (x : Tree) : Ends (fun _ => True) (push x output) := by
  unfold push
  split <;> simp [Error.IsStructural]

/-- An operator joins one operand or two. -/
theorem ends_reduce {op : Operator} (ht : t.IsOperator op) :
    Ends (fun _ => True) (reduce t output) := by
  have harity : op.arity = 1 ∨ op.arity = 2 := by cases op <;> decide
  unfold reduce
  rw [ht.operator]
  dsimp only
  split
  case h_1 => exact ends_push _
  case h_2 => exact ends_push _
  case h_3 => simp [Error.IsStructural]
  case h_4 => simp [Error.IsStructural]
  case h_5 hone htwo _ _ =>
      rcases harity with h | h
      · exact absurd h hone
      · exact absurd h htwo

theorem ends_yield (h : HoldsOpen n waiting) :
    Ends (fun next => HoldsOpen n next.waiting) (yield incoming waiting output) := by
  induction waiting generalizing output with
  | nil => exact h
  | cons top rest ih =>
      rw [yield]
      split
      case h_1 => exact h
      case h_2 stacked hsome =>
          split
          case isFalse => exact h
          case isTrue =>
              rcases h.top with ⟨op, hop, hrest⟩ | ⟨rfl, _⟩
              · exact (ends_reduce hop).bind fun _ _ => ih hrest
              · cases hsome

/-- A closing parenthesis comes to the one that opens its group. -/
theorem ends_close (h : HoldsOpen (n + 1) waiting) :
    Ends (fun next => HoldsOpen n next.waiting) (close waiting output) := by
  induction waiting generalizing output with
  | nil => cases h.count
  | cons top rest ih =>
      rw [close]
      rcases h.top with ⟨op, hop, hrest⟩ | ⟨rfl, k, hk, hrest⟩
      · rw [if_neg (by simp [hop.isOpen_eq])]
        exact (ends_reduce hop).bind fun _ _ => ih hrest
      · cases hk
        exact hrest

/-- Where no group is open, only operators wait. -/
theorem ends_drain (h : HoldsOpen 0 waiting) : Ends (fun _ => True) (drain waiting output) := by
  induction waiting generalizing output with
  | nil => trivial
  | cons top rest ih =>
      rw [drain]
      rcases h.top with ⟨op, hop, hrest⟩ | ⟨rfl, k, hk, _⟩
      · rw [if_neg hop.kind_ne]
        exact (ends_reduce hop).bind fun _ _ => ih hrest
      · cases hk

/-- A token that closes no group that is not open leaves on the stack what it leaves open. -/
theorem ends_step (h : HoldsOpen n m.waiting) (ht : t.Atom) (hcount : openAfter n [t] = some k) :
    Ends (fun next => HoldsOpen k next.waiting) (m.step t) := by
  cases hkind : t.kind with
  | path | constant =>
      rw [openAfter_cons_of_ne (by simp [hkind])] at hcount
      cases hcount
      simp only [step, hkind]
      exact h
  | relational | logical =>
      rw [openAfter_cons_of_ne (by simp [hkind])] at hcount
      cases hcount
      obtain ⟨op, hop⟩ := ht.exists_isOperator (by simp [hkind])
      simp only [step, hkind, hop.operator]
      exact (ends_yield h).bind fun _ hnext => hnext.operator hop
  | parenthesis =>
      obtain ⟨isOpen, rfl⟩ := ht.eq_parenthesis hkind
      cases isOpen with
      | true =>
          cases hcount
          exact h.opened
      | false =>
          cases n with
          | zero => cases hcount
          | succ n =>
              cases hcount
              exact ends_close h
  | nestedPath => exact absurd hkind ht.kind_ne_nestedPath

/-! ## All tokens -/

theorem ends_run (h : HoldsOpen n m.waiting) (hts : ∀ t ∈ ts, t.Atom)
    (hcount : openAfter n ts = some k) :
    Ends (fun last => HoldsOpen k last.waiting) (m.run ts) := by
  induction ts generalizing m n with
  | nil =>
      cases hcount
      exact h
  | cons t rest ih =>
      obtain ⟨ht, hrest⟩ := List.forall_mem_cons.mp hts
      have hsplit : openAfter n ([t] ++ rest) = some k := hcount
      rw [openAfter_append] at hsplit
      obtain ⟨j, hfirst, hothers⟩ := Option.bind_eq_some_iff.mp hsplit
      rw [run]
      exact (ends_step h ht hfirst).bind fun _ hnext => ih hnext hrest hothers

theorem ends_finish (h : HoldsOpen 0 m.waiting) : Ends (fun _ => True) m.finish := by
  refine (ends_drain h).bind fun output _ => ?_
  split <;> simp [Error.IsStructural]

end Machine

/-! ## The check of operands -/

namespace Tree

variable {x : Tree} {op : Operator} {kind : Token.Kind}

theorem ends_checkKind : Ends (fun _ => True) (x.checkKind op kind) := by
  unfold checkKind
  split
  · simp [Error.IsStructural]
  · split <;> simp [Error.IsStructural]

theorem ends_checkFilter {check : Except Error Unit} (h : Ends (fun _ => True) check) :
    Ends (fun _ => True) (x.checkFilter op check) := by
  unfold checkFilter
  split
  · trivial
  · split
    · simp [Error.IsStructural]
    · exact h

theorem ends_checkOperands (x : Tree) : Ends (fun _ => True) x.checkOperands := by
  induction x with
  | nil => trivial
  | node t l r ihl ihr =>
      rw [checkOperands]
      split
      · split <;> simp [Error.IsStructural]
      · split
        · exact (ends_checkFilter ihl).bind fun _ _ => ends_checkFilter ihr
        · refine ends_checkKind.bind fun _ _ => ?_
          split
          · trivial
          · exact ends_checkKind

end Tree

/-- Of scanned tokens that leave nothing open, no error of the parser is structural. -/
theorem ends_parse (hts : ∀ t ∈ ts, t.Scanned) (hopen : openAfter 0 ts = some 0) :
    Ends (fun _ => True) (parse ts) := by
  obtain ⟨flat, hflat, hatoms⟩ := splice_scanned hts
  have hcount : openAfter 0 flat = some 0 := (openAfter_splice hts hflat).trans hopen
  have hempty : Machine.HoldsOpen 0 [] := ⟨fun _ ht => absurd ht List.not_mem_nil, rfl⟩
  unfold parse
  rw [hflat, ok_bind]
  refine (Machine.ends_run (m := {}) hempty hatoms hcount).bind fun last hlast => ?_
  refine (Machine.ends_finish hlast).bind fun root _ => ?_
  exact root.ends_checkOperands.bind fun _ _ => trivial

/-- The tokens of a text are well formed, and no error that the parser raises on them is about
their structure. -/
theorem wellFormed_of_tokenize {text : String} (h : tokenize text = .ok ts) :
    WellFormed ts ∧ ∀ e, parse ts = .error e → ¬ e.IsStructural := by
  obtain ⟨hlexed, hopen⟩ := lexed_of_tokenize h
  have hscanned : ∀ t ∈ ts, t.Scanned := fun t ht => (hlexed t ht).scanned
  obtain ⟨s, _, hfinish⟩ := ok_of_bind h
  obtain ⟨_, _, _, _, hnonempty⟩ := Scanner.finish_cases hfinish
  refine ⟨⟨hnonempty, balanced_of_openAfter hscanned hopen, ?_, ?_⟩, fun e he => ?_⟩
  · exact fun t ht => (hscanned t ht).nested_iff
  · intro t ht inner hinner
    cases hlexed t ht with
    | lexeme hlexeme => cases hlexeme.atom.nested?_eq_none.symm.trans hinner
    | bracket _ _ hlexemes hclosed hne =>
        cases hinner
        have hatoms : ∀ u ∈ inner, u.Atom := fun u hu => (hlexemes u hu).atom
        exact ⟨hne, balanced_of_openAfter (fun u hu => .atom (hatoms u hu)) hclosed,
          fun u hu => ⟨(hatoms u hu).kind_ne_nestedPath, (hatoms u hu).nested?_eq_none⟩⟩
  · have hends := ends_parse hscanned hopen
    rw [he] at hends
    exact hends

/-- A group in a bracket in a group, with parentheses in quotes.  The tokens are well formed, and
what the parser refuses is an operand. -/
theorem wellFormed_of_tokenize_groups :
    ∃ ts, tokenize "(emails[(type eq \")(\") and value])" = .ok ts ∧ WellFormed ts ∧
      parse ts = .error (.invalidOperand "and" "emails.value") ∧
      ¬ (Error.invalidOperand "and" "emails.value").IsStructural := by
  obtain ⟨ts, hts, herror⟩ : ∃ ts, tokenize "(emails[(type eq \")(\") and value])" = .ok ts ∧
      parse ts = .error (.invalidOperand "and" "emails.value") := ⟨_, rfl, rfl⟩
  obtain ⟨hwell, hparse⟩ := wellFormed_of_tokenize hts
  exact ⟨ts, hts, hwell, herror, hparse _ herror⟩

end Scim.Filter
