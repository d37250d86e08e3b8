import Scim.Evaluation.Truth
import Scim.Proofs.Filter.Assembly
import Scim.Proofs.Filter.Precedence

/-!
# Filters in brackets

A filter in brackets behind a path is parsed to its own tree with the path in front of every path
(`parse_bracket`).  This holds of every filter that the machine takes, whether the grammar has it
or not: the machine reads the spliced tokens as it reads the filter, on top of the parenthesis that
splicing has put in front (`Machine.grouped`).

The tree under a path is true if the tree is, once its paths mean what the longer ones do
(`Tree.eval_under`).
-/

namespace Scim.Filter

/-- A token that is a plain path if it is a path. -/
def Token.IsPlain (t : Token) : Prop := t.kind = .path → t = .path t.text

section

variable {outer : String} {t : Token} {tree : Tree}

theorem Token.operator?_under (h : t.IsPlain) : (t.under outer).operator? = t.operator? := by
  by_cases hkind : t.kind = .path
  · rw [h hkind]
    rfl
  · rw [Token.under_of_ne hkind]

theorem Token.constant?_under (h : t.IsPlain) : (t.under outer).constant? = t.constant? := by
  by_cases hkind : t.kind = .path
  · rw [h hkind]
    rfl
  · rw [Token.under_of_ne hkind]

@[simp] theorem Tree.isNil_under : (tree.under outer).isNil = tree.isNil := by
  cases tree <;> rfl

@[simp] theorem Tree.height_under : (tree.under outer).height = tree.height := by
  induction tree with
  | nil => rfl
  | node t l r ihl ihr => rw [under, height, height, ihl, ihr]

theorem Tree.kind?_under : (tree.under outer).kind? = tree.kind? := by
  cases tree with
  | nil => rfl
  | node t l r => exact congrArg some Token.kind_under

theorem Tree.operator?_under (h : tree.Forall Token.IsPlain) :
    (tree.under outer).operator? = tree.operator? := by
  cases tree with
  | nil => rfl
  | node t l r => exact Token.operator?_under h.1

/-! ## The machine -/

namespace Machine

variable {m m' : Machine} {waiting ts : List Token} {output output' : List Tree}
  {incoming : Operator}

/-- The machine in a group, with a path in front of every path. -/
def grouped (outer : String) (m : Machine) : Machine :=
  ⟨m.output.map (Tree.under outer), m.waiting ++ [.parenthesis true]⟩

/-- What waits is no path. -/
abbrev NoPath (waiting : List Token) : Prop := ∀ t ∈ waiting, t.kind ≠ .path

theorem push_under (h : push tree output = .ok output') :
    push (tree.under outer) (output.map (Tree.under outer)) =
      .ok (output'.map (Tree.under outer)) := by
  unfold push at h ⊢
  rw [Tree.height_under]
  split at h
  case isTrue => cases h
  case isFalse hdepth =>
      cases h
      exact if_neg hdepth

theorem reduce_under (ht : t.kind ≠ .path) (h : reduce t output = .ok output') :
    reduce t (output.map (Tree.under outer)) = .ok (output'.map (Tree.under outer)) := by
  unfold reduce at h ⊢
  split at h
  case h_1 => cases h
  case h_2 op hop =>
      split at h
      case h_1 operand rest harity =>
          rw [harity]
          have hnode : (Tree.node t operand .nil).under outer =
              .node t (operand.under outer) .nil := by rw [Tree.under, Token.under_of_ne ht]; rfl
          show push (.node t (operand.under outer) .nil) (rest.map (Tree.under outer)) = _
          rw [← hnode]
          exact push_under h
      case h_2 right left rest harity =>
          rw [harity]
          have hnode : (Tree.node t left right).under outer =
              .node t (left.under outer) (right.under outer) := by
            rw [Tree.under, Token.under_of_ne ht]
          show push (.node t (left.under outer) (right.under outer))
            (rest.map (Tree.under outer)) = _
          rw [← hnode]
          exact push_under h
      case h_3 => cases h
      case h_4 => cases h
      case h_5 => cases h

variable (outer) in
theorem yield_under (hw : NoPath waiting) (h : yield incoming waiting output = .ok m) :
    yield incoming (waiting ++ [.parenthesis true]) (output.map (Tree.under outer)) =
        .ok (m.grouped outer) ∧ NoPath m.waiting := by
  induction waiting generalizing output with
  | nil =>
      cases h
      exact ⟨rfl, hw⟩
  | cons top rest ih =>
      rw [yield] at h
      rw [List.cons_append, yield]
      split at h
      case h_1 hnone =>
          cases h
          exact ⟨rfl, hw⟩
      case h_2 stacked hsome =>
          split at h
          case isTrue hyield =>
              obtain ⟨next, hnext, h⟩ := ok_of_bind h
              obtain ⟨hrest, hw'⟩ := ih (fun t ht => hw t (List.mem_cons_of_mem _ ht)) h
              rw [if_pos hyield, reduce_under (hw top List.mem_cons_self) hnext]
              exact ⟨hrest, hw'⟩
          case isFalse hyield =>
              cases h
              exact ⟨if_neg hyield, hw⟩

theorem close_under (hw : NoPath waiting) (h : close waiting output = .ok m) :
    close (waiting ++ [.parenthesis true]) (output.map (Tree.under outer)) =
        .ok (m.grouped outer) ∧ NoPath m.waiting := by
  induction waiting generalizing output with
  | nil => cases h
  | cons top rest ih =>
      have hrest : NoPath rest := fun t ht => hw t (List.mem_cons_of_mem _ ht)
      rw [close] at h
      rw [List.cons_append, close]
      split at h
      case isTrue hopen =>
          cases h
          exact ⟨if_pos hopen, hrest⟩
      case isFalse hopen =>
          obtain ⟨next, hnext, h⟩ := ok_of_bind h
          obtain ⟨hclose, hw'⟩ := ih hrest h
          rw [if_neg hopen, reduce_under (hw top List.mem_cons_self) hnext]
          exact ⟨hclose, hw'⟩

/-- The closing parenthesis takes what the end of the filter would take. -/
theorem close_of_drain (hw : NoPath waiting) (h : drain waiting output = .ok output') :
    close (waiting ++ [.parenthesis true]) (output.map (Tree.under outer)) =
      .ok ⟨output'.map (Tree.under outer), []⟩ := by
  induction waiting generalizing output with
  | nil =>
      cases h
      rfl
  | cons top rest ih =>
      rw [drain] at h
      rw [List.cons_append, close]
      split at h
      case isTrue => cases h
      case isFalse hkind =>
          have hopen : ¬ top.isOpen = true := fun hopen =>
            hkind (of_decide_eq_true (Bool.and_eq_true_iff.mp hopen).1)
          obtain ⟨next, hnext, h⟩ := ok_of_bind h
          rw [if_neg hopen, reduce_under (hw top List.mem_cons_self) hnext]
          exact ih (fun t ht => hw t (List.mem_cons_of_mem _ ht)) h

variable (outer) in
/-- One token of the filter. -/
theorem step_under (hw : NoPath m.waiting) (h : m.step t = .ok m') :
    (m.grouped outer).step (t.under outer) = .ok (m'.grouped outer) ∧ NoPath m'.waiting := by
  cases hkind : t.kind with
  | path =>
      rw [step_operand (Or.inl hkind)] at h
      cases h
      rw [step_operand (Or.inl (Token.kind_under.trans hkind))]
      exact ⟨rfl, hw⟩
  | constant =>
      rw [step_operand (Or.inr hkind)] at h
      cases h
      rw [step_operand (Or.inr (Token.kind_under.trans hkind))]
      exact ⟨rfl, hw⟩
  | relational | logical =>
      have hne : t.kind ≠ .path := by simp [hkind]
      rw [Token.under_of_ne hne]
      simp only [step, hkind] at h ⊢
      split at h
      case h_1 => cases h
      case h_2 incoming _ =>
          obtain ⟨next, hnext, h⟩ := ok_of_bind h
          cases h
          obtain ⟨hyield, hw'⟩ := yield_under outer hw hnext
          refine ⟨?_, List.forall_mem_cons.mpr ⟨hne, hw'⟩⟩
          rw [grouped, hyield]
          rfl
  | parenthesis =>
      have hne : t.kind ≠ .path := by simp [hkind]
      rw [Token.under_of_ne hne]
      simp only [step, hkind] at h ⊢
      split at h
      case isTrue hopen =>
          cases h
          rw [if_pos hopen]
          exact ⟨rfl, List.forall_mem_cons.mpr ⟨hne, hw⟩⟩
      case isFalse hopen =>
          rw [if_neg hopen]
          exact close_under hw h
  | nestedPath =>
      simp only [step, hkind] at h
      cases h

theorem run_append (ts us : List Token) :
    m.run (ts ++ us) = m.run ts >>= fun next => next.run us := by
  induction ts generalizing m with
  | nil => rfl
  | cons t rest ih =>
      rw [List.cons_append, run, run, bind_assoc]
      exact bind_congr fun next => ih

variable (outer) in
/-- The tokens of the filter. -/
theorem run_under (hw : NoPath m.waiting) (h : m.run ts = .ok m') :
    (m.grouped outer).run (ts.map (Token.under outer)) = .ok (m'.grouped outer) ∧
      NoPath m'.waiting := by
  induction ts generalizing m with
  | nil =>
      cases h
      exact ⟨rfl, hw⟩
  | cons t rest ih =>
      rw [run] at h
      obtain ⟨next, hnext, h⟩ := ok_of_bind h
      obtain ⟨hstep, hw'⟩ := step_under outer hw hnext
      obtain ⟨hrun, hw''⟩ := ih hw' h
      refine ⟨?_, hw''⟩
      rw [List.map_cons, run, hstep]
      exact hrun

end Machine

/-! ## The check of operands -/

theorem Tree.checkFilter_under {op : Operator} {check check' : Except Error Unit}
    (hplain : tree.Forall Token.IsPlain) (hcheck : check = .ok () → check' = .ok ())
    (h : tree.checkFilter op check = .ok ()) :
    (tree.under outer).checkFilter op check' = .ok () := by
  unfold checkFilter at h ⊢
  rw [isNil_under, operator?_under hplain]
  split at h
  case isTrue hnil => exact if_pos hnil
  case isFalse hnil =>
      rw [if_neg hnil]
      split at h
      case isTrue => cases h
      case isFalse hoperator =>
          rw [if_neg hoperator]
          exact hcheck h

theorem Tree.checkKind_under {op : Operator} {kind : Token.Kind}
    (h : tree.checkKind op kind = .ok ()) : (tree.under outer).checkKind op kind = .ok () := by
  unfold checkKind at h ⊢
  rw [kind?_under]
  split at h
  case h_1 => cases h
  case h_2 k hkind =>
      split at h
      case isTrue hsame => exact if_pos hsame
      case isFalse => cases h

/-- A tree keeps passing the check of operands under a path. -/
theorem Tree.checkOperands_under (hplain : tree.Forall Token.IsPlain)
    (h : tree.checkOperands = .ok ()) : (tree.under outer).checkOperands = .ok () := by
  induction tree with
  | nil => rfl
  | node t l r ihl ihr =>
      obtain ⟨ht, hl, hr⟩ := hplain
      rw [checkOperands] at h
      rw [under, checkOperands, Token.operator?_under ht]
      split at h
      case h_1 =>
          split at h
          case isTrue => cases h
          case isFalse hleaf =>
              rw [Token.kind_under, isNil_under, isNil_under, if_neg hleaf]
      case h_2 op _ =>
          split at h
          case isTrue hlogical =>
              obtain ⟨_, hleft, h⟩ := ok_of_bind h
              rw [if_pos hlogical, checkFilter_under hl (ihl hl) hleft]
              exact checkFilter_under hr (ihr hr) h
          case isFalse hlogical =>
              obtain ⟨_, hleft, h⟩ := ok_of_bind h
              rw [if_neg hlogical, checkKind_under hleft]
              split at h
              case isTrue hpr => exact if_pos hpr
              case isFalse hpr =>
                  show (if op = .pr then _ else _) = _
                  rw [if_neg hpr]
                  exact checkKind_under h

end

/-! ## Parsing -/

variable {ts : List Token} {tree : Tree} {outer : String}

/-- The run and the check behind a filter without brackets. -/
theorem of_parse (h : parse ts = .ok tree) (hts : ∀ t ∈ ts, t.kind ≠ .nestedPath) :
    ∃ m, Machine.run {} ts = .ok m ∧ Machine.drain m.waiting m.output = .ok [tree] ∧
      tree.checkOperands = .ok () := by
  obtain ⟨flat, m, hflat, hm, hdrain, hcheck⟩ := parse_cases h
  rw [splice_of_ne hts] at hflat
  cases hflat
  exact ⟨m, hm, hdrain, hcheck⟩

/-- What holds of every token that is parsed holds of every token of the tree. -/
theorem forall_of_parse {p : Token → Prop} (h : parse ts = .ok tree)
    (hts : ∀ t ∈ ts, t.kind ≠ .nestedPath) (hp : ∀ t ∈ ts, p t) : tree.Forall p := by
  obtain ⟨flat, hflat, hruns, _⟩ := runs_of_parse h
  rw [splice_of_ne hts] at hflat
  cases hflat
  exact hruns.forall_tokens hp

/-- A filter in brackets behind a path is parsed to its tree under that path. -/
theorem parse_bracket (h : parse ts = .ok tree) (hts : ∀ t ∈ ts, t.kind ≠ .nestedPath)
    (hplain : ∀ t ∈ ts, t.IsPlain) :
    parse [.withFilter outer ts] = .ok (tree.under outer) := by
  obtain ⟨m, hm, hdrain, hcheck⟩ := of_parse h hts
  have hflat : splice [.withFilter outer ts] =
      .ok (.parenthesis true :: (ts.map (Token.under outer) ++ [.parenthesis false])) := by
    have hbracket := spliceToken_bracket (t := .withFilter outer ts) rfl rfl hts
    rw [splice_cons hbracket rfl, List.append_nil]
    rfl
  obtain ⟨hrun, hw⟩ := Machine.run_under outer (m := {})
    (fun _ ht => absurd ht List.not_mem_nil) hm
  have hread : Machine.run {} (.parenthesis true :: (ts.map (Token.under outer) ++
      [.parenthesis false])) = .ok ⟨[tree.under outer], []⟩ := by
    show Machine.run (Machine.grouped outer {}) (ts.map (Token.under outer) ++ _) = _
    rw [Machine.run_append, hrun]
    show (Machine.step (m.grouped outer) (.parenthesis false) >>= fun next => .ok next) = _
    rw [Machine.step_close]
    show (Machine.close (m.waiting ++ _) (m.output.map _) >>= fun next => .ok next) = _
    rw [Machine.close_of_drain hw hdrain]
    rfl
  unfold parse
  rw [hflat]
  show (Machine.run {} _ >>= fun m => m.finish >>= fun root =>
    root.checkOperands >>= fun _ => Except.ok root) = _
  rw [hread]
  show ((tree.under outer).checkOperands >>= fun _ => Except.ok (tree.under outer)) = _
  rw [Tree.checkOperands_under (forall_of_parse h hts hplain) hcheck]
  rfl

/-! ## Truth -/

theorem Tree.path?_under : (tree.under outer).path? = tree.path?.map (outer ++ "." ++ ·) := by
  cases tree with
  | nil => rfl
  | node t l r =>
      rw [under, path?, path?, Token.kind_under]
      split
      case isTrue hkind =>
          rw [Token.under_of_path hkind]
          rfl
      case isFalse => rfl

theorem Tree.constant?_under (h : tree.Forall Token.IsPlain) :
    (tree.under outer).constant? = tree.constant? := by
  cases tree with
  | nil => rfl
  | node t l r => exact Token.constant?_under h.1

/-- A tree under a path is true if the tree is, where its paths mean what the longer ones do. -/
theorem Tree.eval_under (meaning : Meaning) (h : tree.Forall Token.IsPlain) :
    (tree.under outer).eval meaning = tree.eval fun path => meaning (outer ++ "." ++ path) := by
  induction tree with
  | nil => rfl
  | node t l r ihl ihr =>
      obtain ⟨ht, hl, hr⟩ := h
      rw [under, eval, eval, Token.operator?_under ht, isNil_under, isNil_under, ihl hl, ihr hr,
        path?_under, constant?_under hr]
      cases t.operator? with
      | none => rfl
      | some op => cases l.path? <;> cases r.constant? <;> cases op <;> rfl

end Scim.Filter
