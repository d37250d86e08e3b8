import Scim.Proofs.Filter.Assembly
import Scim.Proofs.Filter.Precedence

/-!
# Reading a displayed tree

A tree that was read is displayed as a text that is read as the same tree, with the keywords of its
operators in small letters.

* A text *yields* tokens if a scanner at rest scans it to them, with the last one perhaps still
  pending (`Scanner.Yields`).  Words yield their tokens, and texts with a space between them or with
  parentheses around them yield what their parts do.
* So the display of a proper tree yields its written tokens (`Tree.Proper.yields_display`), and
  these have a derivation.

Splicing can make a path that is no path on its own: quotes in its two halves may meet to a string.
A tree with such a path is not read back, so the leaves have to be paths as they stand.
-/

namespace Scim.Filter

/-! ## Scanning in parts -/

namespace Scanner

variable {s t : Scanner} {text front back : List Char} {ts us : List Token} {c : Char}

/-- The scanner is between two words, outside of quotes and brackets. -/
structure AtRest (s : Scanner) : Prop where
  inner : s.inner = none
  word : s.word = ""
  quoting : s.quoting = .outside
  closed : s.closed = false

/-- Once the pending word is ended, the scanner `t` has the tokens behind those of `s`. -/
structure Reaches (s t : Scanner) (ts : List Token) : Prop where
  inner : t.inner = none
  quoting : t.quoting = .outside
  closed : t.closed = false
  outer : t.flush.outer.toList = s.outer.toList ++ ts
  outerOpen : t.flush.outerOpen = s.outerOpen

/-- From rest, the text is scanned to the tokens. -/
def Yields (text : List Char) (ts : List Token) : Prop :=
  ∀ (s : Scanner) (position : Nat), s.AtRest →
    ∃ t, s.run position text = .ok t ∧ s.Reaches t ts

theorem AtRest.flush (h : s.AtRest) : s.flush = s := by
  rw [Scanner.flush, if_pos (String.isEmpty_iff.mpr h.word)]

theorem Reaches.rest (h : s.Reaches t ts) : t.flush.AtRest :=
  ⟨inner_flush h.inner, word_flush, quoting_flush.trans h.quoting, closed_flush.trans h.closed⟩

/-- A character of a word is added to the pending word. -/
theorem step_wordChar (position : Nat) (hclosed : s.closed = false)
    (hc : s.quoting = .outside → IsWordChar c) : ∃ start, s.step position c = .ok { s with
      word := s.word.push c, quoting := s.quoting.after c, quoteStart := start } := by
  by_cases hquoting : s.quoting = .outside
  · obtain ⟨hblank, hspecial⟩ := hc hquoting
    simp only [List.mem_cons, List.not_mem_nil, or_false, not_or] at hspecial
    obtain ⟨hopen, hclose, hgroup, hend⟩ := hspecial
    rw [step_of_outside hquoting hclosed, plainChar]
    by_cases hquote : c = '"'
    · exact ⟨position, by simp [hquote, hquoting, Quoting.after]⟩
    · exact ⟨s.quoteStart, by
        simp [hquote, hblank, hopen, hclose, hgroup, hend, hquoting, Quoting.after]⟩
  · refine ⟨s.quoteStart, ?_⟩
    rw [step_of_quoted hquoting, ← quoting_quotedChar hquoting]
    rfl

/-- The characters of a word are added to the pending word. -/
theorem run_spans {q : Quoting} (position : Nat) (hclosed : s.closed = false)
    (h : Spans s.quoting text q) : ∃ start, s.run position text = .ok { s with
      word := s.word ++ String.ofList text, quoting := q, quoteStart := start } := by
  induction text generalizing s position with
  | nil =>
      cases h
      exact ⟨s.quoteStart, by simp [run]⟩
  | cons c rest ih =>
      obtain ⟨hc, hrest⟩ := h
      obtain ⟨start, hstep⟩ := step_wordChar position hclosed hc
      rw [run, hstep]
      obtain ⟨start', hrun⟩ := ih (s := { s with
        word := s.word.push c, quoting := s.quoting.after c, quoteStart := start }) _ hclosed hrest
      refine ⟨start', hrun.trans ?_⟩
      have hword : s.word.push c ++ String.ofList rest = s.word ++ String.ofList (c :: rest) :=
        String.toList_inj.mp (by simp)
      rw [hword]

/-- A word yields its token. -/
theorem yields_word {w : String} (h : IsWord w) : Yields w.toList [.ofWord w] := by
  intro s position hs
  have hspans : Spans s.quoting w.toList .outside := hs.quoting ▸ h.spans
  obtain ⟨start, hrun⟩ := run_spans position hs.closed hspans
  rw [hs.word, String.empty_append, String.ofList_toList] at hrun
  have hnonempty : ¬ w.isEmpty = true := fun hempty => h.nonempty (String.isEmpty_iff.mp hempty)
  refine ⟨_, hrun, hs.inner, rfl, hs.closed, ?_, ?_⟩
  · simp [Scanner.flush, hnonempty, emit, hs.inner]
  · simp [Scanner.flush, hnonempty, emit, hs.inner]

/-- Texts with a space between them yield the tokens of both. -/
theorem Yields.space (h : Yields front ts) (h' : Yields back us) :
    Yields (front ++ ' ' :: back) (ts ++ us) := by
  intro s position hs
  obtain ⟨t, hrun, ht⟩ := h s position hs
  have hstep : ∀ position, t.step position ' ' = .ok t.flush := by
    intro position
    rw [step_of_outside ht.quoting ht.closed]
    rfl
  obtain ⟨u, hrun', hu⟩ := h' t.flush _ ht.rest
  refine ⟨u, ?_, hu.inner, hu.quoting, hu.closed, ?_, hu.outerOpen.trans ht.outerOpen⟩
  · rw [run_append, hrun, ok_bind, run, hstep]
    exact hrun'
  · rw [hu.outer, ht.outer, List.append_assoc]

/-- A text in parentheses yields its tokens in parentheses. -/
theorem Yields.group (h : Yields text ts) :
    Yields ('(' :: (text ++ [')'])) (.parenthesis true :: (ts ++ [.parenthesis false])) := by
  intro s position hs
  have hopen : s.step position '(' = .ok { s with
      outer := s.outer.push (.parenthesis true), outerOpen := s.outerOpen + 1 } := by
    rw [step_of_outside hs.quoting hs.closed]
    show Except.ok s.openGroup = _
    rw [openGroup, hs.flush, emit_outside hs.inner, openCount, hs.inner]
    rfl
  obtain ⟨t, hrun, ht⟩ := h { s with
    outer := s.outer.push (.parenthesis true), outerOpen := s.outerOpen + 1 } _
    ⟨hs.inner, hs.word, hs.quoting, hs.closed⟩
  have hclose : ∀ position, t.step position ')' = .ok { t.flush with
      outer := t.flush.outer.push (.parenthesis false), outerOpen := s.outerOpen } := by
    intro position
    rw [step_of_outside ht.quoting ht.closed]
    show t.closeGroup = _
    have hcount : t.flush.openCount = s.outerOpen + 1 := by
      rw [openCount, ht.rest.inner]
      exact ht.outerOpen
    rw [closeGroup]
    dsimp only
    rw [hcount, if_neg (Nat.succ_ne_zero _), emit_outside ht.rest.inner]
    rfl
  have hrest : AtRest { t.flush with
      outer := t.flush.outer.push (.parenthesis false), outerOpen := s.outerOpen } :=
    ⟨ht.rest.inner, ht.rest.word, ht.rest.quoting, ht.rest.closed⟩
  refine ⟨_, ?_, hrest.inner, hrest.quoting, hrest.closed, ?_, ?_⟩
  · rw [run, hopen, ok_bind, run_append, hrun, ok_bind, run, hclose]
    rfl
  · rw [hrest.flush]
    simp [ht.outer]
  · rw [hrest.flush]

end Scanner

/-- A text that yields tokens is split into them. -/
theorem tokenize_of_yields {text : String} {ts : List Token}
    (h : Scanner.Yields text.toList ts) (hne : ts ≠ []) : tokenize text = .ok ts := by
  obtain ⟨t, hrun, ht⟩ := h {} 0 ⟨rfl, rfl, rfl, rfl⟩
  have houter : t.flush.outer.toList = ts := ht.outer
  have hempty : ¬ t.flush.outer.isEmpty = true := by
    intro hempty
    rw [← houter, Array.isEmpty_iff.mp hempty] at hne
    exact hne rfl
  have hinner : ¬ t.flush.inner.isSome = true := by simp [ht.rest.inner]
  have hopen : t.flush.outerOpen = 0 := ht.outerOpen
  rw [tokenize, hrun, ok_bind, Scanner.finish, if_neg (not_not_intro ht.quoting)]
  dsimp only
  rw [if_neg hinner, if_neg (not_not_intro hopen), if_neg hempty, houter]

/-! ## Display -/

/-- The token with the keyword in small letters, if it is an operator. -/
def Token.lowered (t : Token) : Token :=
  if t.isOperator then { t with text := Text.lowered t.text } else t

/-- The tree with the keywords of its operators in small letters. -/
def Tree.lowered : Tree → Tree
  | .nil => .nil
  | .node t l r => .node t.lowered l.lowered r.lowered

section

variable {t : Token} {op : Operator} {x y : Tree}

theorem Operator.isWord_keyword (op : Operator) : IsWord op.keyword := by
  cases op <;> decide

theorem Operator.lowered_keyword (op : Operator) : Text.lowered op.keyword = op.keyword := by
  cases op <;> rfl

theorem Token.ofWord_keyword (op : Operator) : ofWord op.keyword = .ofOperator op.keyword op := by
  rw [ofWord, Operator.ofWord?_keyword]

theorem Token.lowered_of_ne (h : t.isOperator = false) : t.lowered = t := by
  rw [lowered, h, if_neg Bool.false_ne_true]

@[simp] theorem Token.kind_lowered : t.lowered.kind = t.kind := by
  unfold lowered
  split <;> rfl

@[simp] theorem Token.operator?_lowered : t.lowered.operator? = t.operator? := by
  unfold lowered
  split <;> rfl

theorem Token.IsOperator.lowered (h : t.IsOperator op) : t.lowered.IsOperator op :=
  ⟨Token.operator?_lowered.trans h.operator, Token.kind_lowered.trans h.kind⟩

/-- The word of an operator in small letters is its keyword. -/
theorem Token.Atom.lowered_eq (h : t.Atom) (ht : t.IsOperator op) :
    t.lowered = .ofOperator op.keyword op := by
  cases h with
  | @operator text op' hword hop =>
      cases ht.operator
      have halike : Text.alike op.keyword text = true := by
        simpa using List.find?_some hop
      have htext : Text.lowered text = op.keyword := by
        rw [← op.lowered_keyword, Text.lowered, Text.lowered, Text.alike_iff.mp halike]
      rw [Token.lowered, ht.isOperator, if_pos rfl]
      show Token.ofOperator (Text.lowered text) op = _
      rw [htext]
  | _ => cases ht.operator

/-! ### What is displayed -/

namespace Tree

theorem Proper.isNil (h : x.Proper) : x.isNil = false := by
  cases h <;> rfl

theorem display_leaf (h : t.operator? = none) : (leaf t).display = t.text := by
  rw [leaf, display, h]

theorem display_comparison (ht : t.operator? = some op) (hop : op.isLogical = false)
    (hpr : op ≠ .pr) (hx : x.isNil = false) (hy : y.isNil = false) :
    (node t x y).display = x.display ++ " " ++ op.keyword ++ " " ++ y.display := by
  have hlogical : op ≠ .not ∧ op ≠ .and ∧ op ≠ .or := by
    refine ⟨?_, ?_, ?_⟩ <;> rintro rfl <;> cases hop
  simp [display, ht, hlogical, hpr, hx, hy]

theorem display_presence (ht : t.operator? = some .pr) (hx : x.isNil = false) :
    (node t x .nil).display = x.display ++ " pr" := by
  simp [display, ht, hx]

theorem display_negation (ht : t.operator? = some .not) (hx : x.isNil = false) :
    (node t x .nil).display = "not (" ++ x.display ++ ")" := by
  simp [display, ht, hx]

theorem display_joined (ht : t.operator? = some op) (hop : op = .and ∨ op = .or)
    (hx : x.isNil = false) (hy : y.isNil = false) :
    (node t x y).display = "(" ++ x.display ++ " " ++ op.keyword ++ " " ++ y.display ++ ")" := by
  rcases hop with rfl | rfl <;> simp [display, ht, hx, hy]

theorem Proper.written_ne_nil (h : x.Proper) : x.written ≠ [] := by
  induction h with
  | comparison _ ht hop _ _ => simp [written_relational ht.operator hop]
  | presence _ ht => simp [written_relational ht.operator rfl]
  | negation ht _ _ => simp [written, ht.operator]
  | joined ht hop _ _ _ _ => simp [written_joined ht.operator hop]

theorem Proper.lowered (h : x.Proper) : x.lowered.Proper := by
  induction h with
  | comparison hp ht hop hpr hc =>
      exact .comparison (Token.kind_lowered.trans hp) ht.lowered hop hpr
        (Token.kind_lowered.trans hc)
  | presence hp ht => exact .presence (Token.kind_lowered.trans hp) ht.lowered
  | negation ht _ ih => exact .negation ht.lowered ih
  | joined ht hop _ _ ihx ihy => exact .joined ht.lowered hop ihx ihy

@[simp] theorem height_lowered : x.lowered.height = x.height := by
  induction x with
  | nil => rfl
  | node t l r ihl ihr => rw [lowered, height, height, ihl, ihr]

theorem lowered_leaf (h : t.kind = .path ∨ t.kind = .constant) : (leaf t).lowered = leaf t := by
  have hne : t.isOperator = false := Token.isOperator_of_isOperand (by simpa [Token.isOperand] using h)
  rw [leaf, lowered, lowered, Token.lowered_of_ne hne]

/-- Nothing but the case of keywords is lowered, and that is not displayed. -/
theorem Proper.display_lowered (h : x.Proper) : x.lowered.display = x.display := by
  induction h with
  | @comparison p t c op hp ht hop hpr hc =>
      rw [Tree.lowered, lowered_leaf (.inl hp), lowered_leaf (.inr hc),
        display_comparison ht.lowered.operator hop hpr rfl rfl,
        display_comparison ht.operator hop hpr rfl rfl]
  | @presence p t hp ht =>
      rw [Tree.lowered, lowered_leaf (.inl hp), Tree.lowered,
        display_presence ht.lowered.operator rfl, display_presence ht.operator rfl]
  | negation ht hx ih =>
      rw [Tree.lowered, Tree.lowered, display_negation ht.lowered.operator hx.lowered.isNil,
        display_negation ht.operator hx.isNil, ih]
  | joined ht hop hx hy ihx ihy =>
      rw [Tree.lowered, display_joined ht.lowered.operator hop hx.lowered.isNil hy.lowered.isNil,
        display_joined ht.operator hop hx.isNil hy.isNil, ihx, ihy]

/-- A leaf that is a path as it stands yields itself. -/
theorem yields_path (hatom : t.Atom) (hkind : t.kind = .path)
    (hpath : (Token.ofWord t.text).kind = .path) :
    Scanner.Yields (leaf t).display.toList [t] := by
  obtain ⟨heq, hword⟩ := hatom.eq_path hkind
  have hyields := Scanner.yields_word hword
  rwa [Token.ofWord_of_path hpath, ← heq, ← display_leaf (hatom.operator?_eq_none (.inl hkind))]
    at hyields

theorem yields_constant (hatom : t.Atom) (hkind : t.kind = .constant) :
    Scanner.Yields (leaf t).display.toList [t] := by
  obtain ⟨hof, hword⟩ := hatom.eq_constant hkind
  have hyields := Scanner.yields_word hword
  rwa [hof, ← display_leaf (hatom.operator?_eq_none (.inr hkind))] at hyields

theorem yields_keyword (hatom : t.Atom) (ht : t.IsOperator op) :
    Scanner.Yields op.keyword.toList [t.lowered] := by
  have hyields := Scanner.yields_word op.isWord_keyword
  rwa [Token.ofWord_keyword, ← hatom.lowered_eq ht] at hyields

/-- The display of a proper tree yields its tokens with parentheses, if its paths are paths as they
stand. -/
theorem Proper.yields_display (h : x.Proper) (hatoms : x.Forall Token.Atom)
    (hpaths : x.Forall fun t => t.kind = .path → (Token.ofWord t.text).kind = .path) :
    Scanner.Yields x.display.toList x.lowered.written := by
  induction h with
  | @comparison p t c op hp ht hop hpr hc =>
      obtain ⟨htoken, ⟨hpatom, _⟩, ⟨hcatom, _⟩⟩ := hatoms
      obtain ⟨_, ⟨hppath, _⟩, _⟩ := hpaths
      have hyields := (yields_path hpatom hp (hppath hp)).space
        ((yields_keyword htoken ht).space (yields_constant hcatom hc))
      rw [Tree.lowered, lowered_leaf (.inl hp), lowered_leaf (.inr hc),
        written_relational ht.lowered.operator hop, display_comparison ht.operator hop hpr rfl rfl]
      simpa using hyields
  | @presence p t hp ht =>
      obtain ⟨htoken, ⟨hpatom, _⟩, _⟩ := hatoms
      obtain ⟨_, ⟨hppath, _⟩, _⟩ := hpaths
      have hyields := (yields_path hpatom hp (hppath hp)).space (yields_keyword htoken ht)
      rw [Tree.lowered, lowered_leaf (.inl hp), Tree.lowered,
        written_relational ht.lowered.operator rfl, display_presence ht.operator rfl]
      simpa [Operator.keyword, tokens] using hyields
  | @negation t x ht hx ih =>
      obtain ⟨htoken, hatoms, _⟩ := hatoms
      obtain ⟨_, hpaths, _⟩ := hpaths
      have hyields := (yields_keyword htoken ht).space (ih hatoms hpaths).group
      rw [Tree.lowered, written, ht.lowered.operator, display_negation ht.operator hx.isNil]
      simpa [Operator.keyword] using hyields
  | @joined t op x y ht hop hx hy ihx ihy =>
      obtain ⟨htoken, hatoms, hatoms'⟩ := hatoms
      obtain ⟨_, hpaths, hpaths'⟩ := hpaths
      have hyields := ((ihx hatoms hpaths).space
        ((yields_keyword htoken ht).space (ihy hatoms' hpaths'))).group
      rw [Tree.lowered, written_joined ht.lowered.operator hop,
        display_joined ht.operator hop hx.isNil hy.isNil]
      simpa using hyields

end Tree

end

/-! ## Reading back -/

/-- A filter without brackets is parsed as its tree, if the tree is not too high. -/
theorem parse_of_flat {flat : List Token} {x : Tree} (h : Derives .expression false flat x)
    (hheight : x.height ≤ maxDepth) : parse flat = .ok x := by
  have hcomplete : Machine.complete {} flat = .ok x := by
    rw [complete_of_flat h, Machine.unlessTooDeep, if_neg (Nat.not_lt.mpr hheight)]
  obtain ⟨m, hrun, hfinish⟩ := ok_of_bind hcomplete
  rw [parse, splice_of_ne (h.kind_ne_nestedPath rfl), ok_bind, hrun, ok_bind, hfinish, ok_bind,
    h.checkOperands rfl]
  rfl

/-- The display of a tree that was read is read as the tree with its keywords in small letters,
which has the same display, if the paths of the tree are paths as they stand. -/
theorem read_display {limit : Nat} {text : String} {x : Tree} (h : read limit text = .ok x)
    (hpaths : x.Forall fun t => t.kind = .path → (Token.ofWord t.text).kind = .path) :
    (∀ limit', x.display.utf8ByteSize ≤ limit' → read limit' x.display = .ok x.lowered) ∧
      x.lowered.display = x.display := by
  obtain ⟨ts, hts, hparse⟩ := read_cases h
  obtain ⟨hscanned, _⟩ := scanned_of_tokenize hts
  obtain ⟨hproper, hatoms, hheight⟩ := proper_of_parse hscanned hparse
  have hd : Derives .expression false x.lowered.written x.lowered :=
    .ofConjunction (.ofUnit hproper.lowered.derives)
  have htokens : tokenize x.display = .ok x.lowered.written :=
    tokenize_of_yields (hproper.yields_display hatoms hpaths) hproper.lowered.written_ne_nil
  have hparse' : parse x.lowered.written = .ok x.lowered :=
    parse_of_flat hd (by rwa [Tree.height_lowered])
  refine ⟨fun limit' hlimit => ?_, hproper.display_lowered⟩
  rw [read, if_neg (Nat.not_lt.mpr hlimit), htokens]
  exact hparse'

/-- `NOT emails[type EQ "a (b" or primary PR]` is displayed without its bracket. -/
theorem read_display_negated :
    ∃ x, read defaultMaxLength "NOT emails[type EQ \"a (b\" or primary PR]" = .ok x ∧
      x.display = "not ((emails.type eq \"a (b\" or emails.primary pr))" ∧
      (x.Forall fun t => t.kind = .path → (Token.ofWord t.text).kind = .path) ∧
      (∀ limit', x.display.utf8ByteSize ≤ limit' → read limit' x.display = .ok x.lowered) ∧
      x.lowered.display = x.display := by
  have hx : read defaultMaxLength "NOT emails[type EQ \"a (b\" or primary PR]" =
      .ok (.node (.ofOperator "NOT" .not)
        (.node (.ofOperator "or" .or)
          (.node (.ofOperator "EQ" .eq) (.leaf (.path "emails.type"))
            (.leaf ⟨"\"a (b\"", .constant, .constant (.string "a (b")⟩))
          (.node (.ofOperator "PR" .pr) (.leaf (.path "emails.primary")) .nil))
        .nil) := rfl
  refine ⟨_, hx, rfl, ?_, read_display hx ?_⟩ <;> decide

end Scim.Filter
