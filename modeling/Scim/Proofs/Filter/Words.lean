import Scim.Proofs.Filter.Grammar
import Scim.Proofs.Filter.Scanning

/-!
# What scanning yields

A *word* is a text that the scanner takes in one piece: outside of quotes it has no white space, no
bracket and no parenthesis, and its quotes are closed (`IsWord`).  Every token that scanning yields
is made of words.  It is a classified word, a parenthesis, or a path with such tokens in a bracket
(`Token.Lexed`), and the parentheses inside and outside of brackets match (`openAfter`).

What a character can do to the scanner is told once (`Scanner.Moves`).  The scanner keeps to its form
at every character (`Scanner.Sound.step`), so the tokens of every text have it (`lexed_of_tokenize`).

Splicing such tokens always succeeds and makes tokens without brackets (`splice_scanned`), since a
word joined to a word by a dot is a word again.  That word may be classified in another way, so what
splicing needs and keeps is less: a token has the form of its kind (`Token.Scanned`).
-/

namespace Scim.Filter

open Scanner (Quoting)

/-! ## Words -/

/-- A character that belongs to a word when it stands outside of quotes. -/
def IsWordChar (c : Char) : Prop := Text.isBlank c = false ∧ c ∉ ['[', ']', '(', ')']

instance (c : Char) : Decidable (IsWordChar c) := inferInstanceAs (Decidable (_ ∧ _))

/-- The characters lead from one quoting to another and belong to one word. -/
def Spans : Quoting → List Char → Quoting → Prop
  | q, [], q' => q = q'
  | q, c :: rest, q' => (q = .outside → IsWordChar c) ∧ Spans (q.after c) rest q'

theorem Spans.append {q q' q'' : Quoting} {front back : List Char} (h : Spans q front q')
    (h' : Spans q' back q'') : Spans q (front ++ back) q'' := by
  induction front generalizing q with
  | nil =>
      cases h
      exact h'
  | cons c rest ih => exact ⟨h.1, ih h.2⟩

instance decidableSpans : ∀ (q : Quoting) (text : List Char) (q' : Quoting),
    Decidable (Spans q text q')
  | q, [], q' => inferInstanceAs (Decidable (q = q'))
  | q, c :: rest, q' =>
      have := decidableSpans (q.after c) rest q'
      inferInstanceAs (Decidable ((q = .outside → IsWordChar c) ∧ Spans (q.after c) rest q'))

/-- A text that is scanned as one word. -/
structure IsWord (w : String) : Prop where
  nonempty : w ≠ ""
  spans : Spans .outside w.toList .outside

instance (w : String) : Decidable (IsWord w) :=
  decidable_of_iff (w ≠ "" ∧ Spans .outside w.toList .outside)
    ⟨fun h => ⟨h.1, h.2⟩, fun h => ⟨h.nonempty, h.spans⟩⟩

/-- Words joined by a dot are a word. -/
theorem IsWord.join {outer inner : String} (h : IsWord outer) (h' : IsWord inner) :
    IsWord (outer ++ "." ++ inner) := by
  have hdot : Spans .outside ['.'] .outside := ⟨fun _ => ⟨by decide, by decide⟩, rfl⟩
  refine ⟨fun hempty => ?_, ?_⟩
  · have hlist := congrArg String.toList hempty
    simp at hlist
  · rw [String.toList_append, String.toList_append]
    exact (h.spans.append hdot).append h'.spans

/-! ## Tokens -/

/-- A token that is no path with a bracket, as scanning and splicing make it. -/
inductive Token.Atom : Token → Prop where
  | operator {text : String} {op : Operator} (hword : IsWord text)
      (hop : Operator.ofWord? text = some op) : Atom (.ofOperator text op)
  | constant {text : String} {value : Constant} (hword : IsWord text)
      (hof : ofWord text = ⟨text, .constant, .constant value⟩) :
      Atom ⟨text, .constant, .constant value⟩
  | path {text : String} (hword : IsWord text) : Atom (.path text)
  | parenthesis (isOpen : Bool) : Atom (.parenthesis isOpen)

/-- The number of open parentheses behind tokens, if none is closed that is not open. -/
def openAfter (n : Nat) : List Token → Option Nat
  | [] => some n
  | t :: rest =>
      if t.kind ≠ .parenthesis then openAfter n rest
      else if t.isOpen then openAfter (n + 1) rest
      else if n = 0 then none
      else openAfter (n - 1) rest

/-- A token as scanning makes it. -/
inductive Token.Scanned : Token → Prop where
  | atom {t : Token} (h : t.Atom) : Scanned t
  | bracket {name : String} {inner : List Token} (hword : IsWord name)
      (hinner : ∀ u ∈ inner, u.Atom) (hclosed : openAfter 0 inner = some 0) :
      Scanned (.withFilter name inner)

/-- A word as it is classified, or a parenthesis. -/
inductive Token.Lexeme : Token → Prop where
  | word {w : String} (hword : IsWord w) : Lexeme (.ofWord w)
  | parenthesis (isOpen : Bool) : Lexeme (.parenthesis isOpen)

/-- A lexeme, or a word that is a path with lexemes in a bracket behind it. -/
inductive Token.Lexed : Token → Prop where
  | lexeme {t : Token} (h : t.Lexeme) : Lexed t
  | bracket {name : String} {inner : List Token} (hword : IsWord name)
      (hpath : ofWord name = .path name) (hinner : ∀ u ∈ inner, u.Lexeme)
      (hclosed : openAfter 0 inner = some 0) (hne : inner ≠ []) : Lexed (.withFilter name inner)

section

variable {t : Token} {ts us : List Token} {n : Nat}

theorem openAfter_append : openAfter n (ts ++ us) = (openAfter n ts).bind (openAfter · us) := by
  fun_induction openAfter n ts with
  | case1 => rfl
  | case2 n t rest hkind ih => rw [List.cons_append, openAfter, if_pos hkind, ih]
  | case3 n t rest hkind hopen ih =>
      rw [List.cons_append, openAfter, if_neg hkind, if_pos hopen, ih]
  | case4 t rest hkind hopen =>
      rw [List.cons_append, openAfter, if_neg hkind, if_neg hopen, if_pos rfl]
      rfl
  | case5 n t rest hkind hopen hne ih =>
      rw [List.cons_append, openAfter, if_neg hkind, if_neg hopen, if_neg hne, ih]

theorem openAfter_cons_of_ne (h : t.kind ≠ .parenthesis) :
    openAfter n (t :: ts) = openAfter n ts := by
  rw [openAfter, if_pos h]

theorem openAfter_open : openAfter n (.parenthesis true :: ts) = openAfter (n + 1) ts := rfl

namespace Token

/-- A word is an operator, a constant or a path. -/
theorem ofWord_cases {w : String} (h : IsWord w) :
    (∃ op, Operator.ofWord? w = some op ∧ ofWord w = ofOperator w op) ∨
      (∃ value, ofWord w = ⟨w, .constant, .constant value⟩) ∨ ofWord w = .path w := by
  have hparen : ¬ (w = "(" ∨ w = ")") := by
    rintro (rfl | rfl) <;> exact absurd (h.spans.1 rfl).2 (by decide)
  unfold ofWord
  split
  case h_1 op hop => exact .inl ⟨op, hop, rfl⟩
  case h_2 =>
      rw [if_neg hparen]
      split
      case h_1 value _ => exact .inr (.inl ⟨value, rfl⟩)
      case h_2 => exact .inr (.inr rfl)

/-- A word makes a token without a bracket that is no parenthesis. -/
theorem atom_ofWord {w : String} (h : IsWord w) :
    (ofWord w).Atom ∧ (ofWord w).kind ≠ .parenthesis := by
  rcases ofWord_cases h with ⟨op, hop, hof⟩ | ⟨value, hof⟩ | hof
  · rw [hof]
    exact ⟨.operator h hop, (isOperator_ofOperator w op).kind_ne⟩
  · have hconstant := Atom.constant h hof
    rw [hof]
    exact ⟨hconstant, nofun⟩
  · rw [hof]
    exact ⟨.path h, nofun⟩

theorem Atom.kind_ne_nestedPath (h : t.Atom) : t.kind ≠ .nestedPath := by
  cases h with
  | @operator text op => exact (isOperator_ofOperator text op).kind_ne
  | _ => exact nofun

/-- A lexeme has the form of its kind. -/
theorem Lexeme.atom (h : t.Lexeme) : t.Atom := by
  cases h with
  | word hword => exact (atom_ofWord hword).1
  | parenthesis isOpen => exact .parenthesis isOpen

/-- A lexeme that is a path is a word that is taken for a path. -/
theorem Lexeme.eq_path (h : t.Lexeme) (hkind : t.kind = .path) :
    ∃ name, t = .path name ∧ IsWord name ∧ ofWord name = .path name := by
  cases h with
  | @word w hword =>
      have hpath := ofWord_of_path hkind
      exact ⟨w, hpath, hword, hpath⟩
  | parenthesis => cases hkind

theorem Lexed.scanned (h : t.Lexed) : t.Scanned := by
  cases h with
  | lexeme h => exact .atom h.atom
  | bracket hword _ hinner hclosed _ => exact .bracket hword (fun u hu => (hinner u hu).atom) hclosed

theorem Scanned.toAtom (h : t.Scanned) (hkind : t.kind ≠ .nestedPath) : t.Atom := by
  cases h with
  | atom h => exact h
  | bracket => exact absurd rfl hkind

theorem Atom.exists_isOperator (h : t.Atom) (hkind : t.kind = .relational ∨ t.kind = .logical) :
    ∃ op, t.IsOperator op := by
  cases h with
  | operator => exact ⟨_, isOperator_ofOperator _ _⟩
  | _ => simp [Token.path, Token.parenthesis] at hkind

theorem Atom.isOperator {op : Operator} (h : t.Atom) (hop : t.operator? = some op) :
    t.IsOperator op := by
  cases h with
  | operator =>
      cases hop
      exact isOperator_ofOperator _ _
  | _ => cases hop

theorem Atom.operator?_eq_none (h : t.Atom) (hkind : t.kind = .path ∨ t.kind = .constant) :
    t.operator? = none := by
  cases h with
  | @operator text op =>
      have hop := isOperator_ofOperator text op
      rcases hkind with hkind | hkind
      · exact absurd hkind hop.kind_ne
      · exact absurd hkind hop.kind_ne
  | _ => rfl

theorem Atom.eq_parenthesis (h : t.Atom) (hkind : t.kind = .parenthesis) :
    ∃ isOpen, t = .parenthesis isOpen := by
  cases h with
  | @operator text op => exact absurd hkind (isOperator_ofOperator text op).kind_ne
  | parenthesis isOpen => exact ⟨isOpen, rfl⟩
  | _ => cases hkind

theorem Atom.eq_path (h : t.Atom) (hkind : t.kind = .path) : t = .path t.text ∧ IsWord t.text := by
  cases h with
  | @operator text op => exact absurd hkind (isOperator_ofOperator text op).kind_ne
  | path hword => exact ⟨rfl, hword⟩
  | _ => cases hkind

theorem Atom.eq_constant (h : t.Atom) (hkind : t.kind = .constant) :
    ofWord t.text = t ∧ IsWord t.text := by
  cases h with
  | @operator text op => exact absurd hkind (isOperator_ofOperator text op).kind_ne
  | constant hword hof => exact ⟨hof, hword⟩
  | _ => cases hkind

/-- A token keeps its form below an outer path. -/
theorem Atom.under {outer : String} (houter : IsWord outer) (h : t.Atom) :
    (t.under outer).Atom := by
  cases h with
  | operator hword hop =>
      rw [(isOperator_ofOperator _ _).under]
      exact .operator hword hop
  | constant hword hof => exact .constant hword hof
  | path hword => exact .path (houter.join hword)
  | parenthesis isOpen => exact .parenthesis isOpen

end Token

/-- Splicing scanned tokens succeeds and leaves no brackets. -/
theorem splice_scanned (h : ∀ t ∈ ts, t.Scanned) :
    ∃ flat, splice ts = .ok flat ∧ ∀ t ∈ flat, t.Atom := by
  induction ts with
  | nil => exact ⟨[], rfl, fun _ ht => absurd ht List.not_mem_nil⟩
  | cons t rest ih =>
      obtain ⟨ht, hrest⟩ := List.forall_mem_cons.mp h
      obtain ⟨flat, hflat, hatoms⟩ := ih hrest
      cases ht with
      | atom ht =>
          refine ⟨t :: flat, splice_cons (if_neg ht.kind_ne_nestedPath) hflat, ?_⟩
          exact List.forall_mem_cons.mpr ⟨ht, hatoms⟩
      | @bracket name inner hword hinner _ =>
          have hne : ∀ u ∈ inner, u.kind ≠ .nestedPath :=
            fun u hu => (hinner u hu).kind_ne_nestedPath
          have hspliced := spliceToken_bracket (t := .withFilter name inner) rfl rfl hne
          refine ⟨_, splice_cons hspliced hflat, List.forall_mem_append.mpr ⟨?_, hatoms⟩⟩
          refine List.forall_mem_cons.mpr ⟨.parenthesis true, ?_⟩
          refine List.forall_mem_append.mpr ⟨?_, ?_⟩
          · intro u hu
            obtain ⟨v, hv, rfl⟩ := List.mem_map.mp hu
            exact (hinner v hv).under hword
          · intro u hu
            rw [List.mem_singleton.mp hu]
            exact .parenthesis false

end

/-! ## What a character does -/

namespace Scanner

variable {s s' : Scanner} {t : Token} {position n : Nat} {c : Char}

/-- What a character can do to a scanner, apart from the mark of a closed bracket. -/
inductive Moves (s : Scanner) : Char → Scanner → Prop where
  | push {c : Char} (hc : s.quoting = .outside → IsWordChar c) (start : Nat) :
      Moves s c { s with
        word := s.word.push c, quoting := s.quoting.after c, quoteStart := start }
  | blank {c : Char} (hout : s.quoting = .outside) (hblank : Text.isBlank c = true) :
      Moves s c s.flush
  | openBracket {path : Token} (hout : s.quoting = .outside) (hinner : s.flush.inner = none)
      (hlast : s.flush.outer.back? = some path) (hkind : path.kind = .path) :
      Moves s '[' { s.flush with inner := some #[], innerOpen := 0 }
  | closeBracket {path : Token} {tokens : Array Token} (hout : s.quoting = .outside)
      (hinner : s.flush.inner = some tokens) (hopen : s.flush.innerOpen = 0)
      (hne : tokens.toList ≠ []) (hlast : s.flush.outer.back? = some path) :
      Moves s ']' { s.flush with
        outer := s.flush.outer.pop.push (.withFilter path.text tokens.toList)
        inner := none
        closed := true }
  | openGroup (hout : s.quoting = .outside) : Moves s '(' s.openGroup
  | closeGroup (hout : s.quoting = .outside) (hcount : s.flush.openCount ≠ 0) :
      Moves s ')' ((s.flush.setOpenCount (s.flush.openCount - 1)).emit (.parenthesis false))

theorem moves_of_openBracket (hout : s.quoting = .outside)
    (h : s.openBracket position = .ok s') : Moves s '[' s' := by
  unfold Scanner.openBracket at h
  dsimp only at h
  split at h
  case isTrue => cases h
  case isFalse hinner =>
      split at h
      case h_2 => cases h
      case h_1 path hlast =>
          split at h
          case isFalse => cases h
          case isTrue hkind =>
              cases h
              exact .openBracket hout (Option.not_isSome_iff_eq_none.mp hinner) hlast hkind

theorem moves_of_closeBracket (hout : s.quoting = .outside)
    (h : s.closeBracket position = .ok s') : Moves s ']' s' := by
  unfold Scanner.closeBracket at h
  split at h
  case isTrue => cases h
  case isFalse =>
      dsimp only at h
      split at h
      case isTrue => cases h
      case isFalse hopen =>
          split at h
          case isTrue => cases h
          case isFalse hempty =>
              split at h
              case h_2 => cases h
              case h_1 path hlast =>
                  cases h
                  cases hinner : s.flush.inner with
                  | none =>
                      rw [hinner] at hempty
                      exact absurd rfl hempty
                  | some tokens =>
                      rw [hinner, Option.getD_some] at hempty
                      exact .closeBracket hout hinner (Decidable.not_not.mp hopen)
                        (fun hnil => hempty (List.isEmpty_iff.mpr hnil)) hlast

theorem moves_of_closeGroup (hout : s.quoting = .outside) (h : s.closeGroup = .ok s') :
    Moves s ')' s' := by
  unfold Scanner.closeGroup at h
  dsimp only at h
  split at h
  case isTrue => cases h
  case isFalse hcount =>
      cases h
      exact .closeGroup hout hcount

theorem moves_of_plainChar (hout : s.quoting = .outside)
    (h : s.plainChar position c = .ok s') : Moves s c s' := by
  unfold Scanner.plainChar at h
  split at h
  case isTrue hquote =>
      cases h
      have hpush := Moves.push (s := s) (c := c)
        (fun _ => by rw [hquote]; exact ⟨by decide, by decide⟩) position
      rwa [hout, Quoting.after, if_pos hquote] at hpush
  case isFalse hquote =>
      split at h
      case isTrue hblank =>
          cases h
          exact .blank hout hblank
      case isFalse hblank =>
          split at h
          case isTrue hc => exact hc ▸ moves_of_openBracket hout h
          case isFalse hopen =>
              split at h
              case isTrue hc => exact hc ▸ moves_of_closeBracket hout h
              case isFalse hclose =>
                  split at h
                  case isTrue hc =>
                      cases h
                      exact hc ▸ .openGroup hout
                  case isFalse hgroup =>
                      split at h
                      case isTrue hc => exact hc ▸ moves_of_closeGroup hout h
                      case isFalse hend =>
                          cases h
                          have hc : IsWordChar c := ⟨Bool.eq_false_iff.mpr hblank, by simp [*]⟩
                          have hpush := Moves.push (s := s) (fun _ => hc) s.quoteStart
                          rwa [hout, Quoting.after, if_neg hquote, ← hout] at hpush

/-- A step is a move of the scanner with or without its mark of a closed bracket. -/
theorem moves_of_step (h : s.step position c = .ok s') :
    ∃ closed, Moves { s with closed := closed } c s' := by
  unfold Scanner.step at h
  split at h
  case isTrue hquoting =>
      cases h
      refine ⟨s.closed, ?_⟩
      have hpush := Moves.push (s := s) (c := c) (fun hout => absurd hout hquoting) s.quoteStart
      rwa [← quoting_quotedChar hquoting] at hpush
  case isFalse hquoting =>
      split at h
      case isTrue => cases h
      case isFalse => exact ⟨false, moves_of_plainChar (Decidable.not_not.mp hquoting) h⟩

/-! ## What the scanner keeps -/

/-- The pending characters are the start of a word, the finished tokens are those of words, and
their open parentheses are counted.  A bracket stands behind a path. -/
structure Sound (s : Scanner) : Prop where
  word : Spans .outside s.word.toList s.quoting
  outer : ∀ t ∈ s.outer.toList, t.Lexed
  outerOpen : openAfter 0 s.outer.toList = some s.outerOpen
  inner : ∀ tokens, s.inner = some tokens →
    (∀ t ∈ tokens.toList, t.Lexeme) ∧ openAfter 0 tokens.toList = some s.innerOpen ∧
      ∃ (before : Array Token) (name : String),
        s.outer = before.push (.path name) ∧ IsWord name ∧ Token.ofWord name = .path name

/-- The scanner starts sound. -/
theorem Sound.start : Sound {} := ⟨rfl, fun _ ht => absurd ht List.not_mem_nil, rfl, nofun⟩

theorem setOpenCount_openCount (s : Scanner) : s.setOpenCount s.openCount = s := by
  unfold setOpenCount openCount
  split <;> rfl

/-- Outside of brackets a token is added to the outer ones. -/
theorem emit_outside (h : s.inner = none) (n : Nat) :
    (s.setOpenCount n).emit t = { s with outer := s.outer.push t, outerOpen := n } := by
  simp [setOpenCount, emit, h]

/-- A token is counted where it is added. -/
theorem Sound.emit (h : s.Sound) (ht : t.Lexeme) (hcount : openAfter s.openCount [t] = some n) :
    ((s.setOpenCount n).emit t).Sound := by
  cases hinner : s.inner with
  | none =>
      rw [openCount, hinner] at hcount
      rw [emit_outside hinner]
      refine ⟨h.word, ?_, ?_, ?_⟩
      · rw [Array.toList_push]
        exact List.forall_mem_append.mpr
          ⟨h.outer, fun u hu => List.mem_singleton.mp hu ▸ .lexeme ht⟩
      · rw [Array.toList_push, openAfter_append, h.outerOpen]
        exact hcount
      · intro tokens htokens
        cases hinner.symm.trans htokens
  | some tokens =>
      have hstate : (s.setOpenCount n).emit t =
          { s with inner := some (tokens.push t), innerOpen := n } := by
        simp [setOpenCount, Scanner.emit, hinner]
      obtain ⟨hlexemes, hopen, hpath⟩ := h.inner tokens hinner
      rw [openCount, hinner] at hcount
      rw [hstate]
      refine ⟨h.word, h.outer, h.outerOpen, ?_⟩
      rintro _ ⟨⟩
      refine ⟨?_, ?_, hpath⟩
      · rw [Array.toList_push]
        exact List.forall_mem_append.mpr ⟨hlexemes, fun u hu => List.mem_singleton.mp hu ▸ ht⟩
      · rw [Array.toList_push, openAfter_append, hopen]
        exact hcount

theorem Sound.flush (h : s.Sound) (hquoting : s.quoting = .outside) : s.flush.Sound := by
  unfold Scanner.flush
  split
  case isTrue => exact h
  case isFalse hempty =>
      have hword : IsWord s.word :=
        ⟨fun hnil => hempty (String.isEmpty_iff.mpr hnil), hquoting ▸ h.word⟩
      have hbare : Sound { s with word := "" } := ⟨hquoting.symm, h.outer, h.outerOpen, h.inner⟩
      have hkind := (Token.atom_ofWord hword).2
      have hemit := hbare.emit (.word hword) (openAfter_cons_of_ne hkind)
      rwa [setOpenCount_openCount] at hemit

/-- The scanner stays sound whatever a character does. -/
theorem Sound.moves (h : s.Sound) (hmoves : Moves s c s') : s'.Sound := by
  cases hmoves with
  | push hc start =>
      refine ⟨?_, h.outer, h.outerOpen, h.inner⟩
      rw [String.toList_push]
      exact h.word.append ⟨hc, rfl⟩
  | blank hout _ => exact h.flush hout
  | @openBracket path hout _ hlast hkind =>
      have hflush := h.flush hout
      obtain ⟨before, hbefore⟩ := Array.back?_eq_some_iff.mp hlast
      refine ⟨hflush.word, hflush.outer, hflush.outerOpen, ?_⟩
      rintro _ ⟨⟩
      have hpath : path.Lexed := hflush.outer path (by simp [hbefore])
      cases hpath with
      | bracket => cases hkind
      | lexeme hlexeme =>
          obtain ⟨name, rfl, hword, hof⟩ := hlexeme.eq_path hkind
          exact ⟨fun _ ht => absurd ht List.not_mem_nil, rfl, before, name, hbefore, hword, hof⟩
  | @closeBracket path tokens hout hinner hopen hne hlast =>
      have hflush := h.flush hout
      obtain ⟨hlexemes, hcount, before, name, hbefore, hword, hof⟩ := hflush.inner tokens hinner
      rw [hopen] at hcount
      have houter := hflush.outer
      have houterOpen := hflush.outerOpen
      rw [hbefore, Array.back?_push] at hlast
      cases hlast
      rw [hbefore, Array.toList_push] at houter houterOpen
      rw [openAfter_append] at houterOpen
      refine ⟨hflush.word, ?_, ?_, nofun⟩
      · dsimp only
        rw [hbefore, Array.pop_push, Array.toList_push]
        refine List.forall_mem_append.mpr ⟨(List.forall_mem_append.mp houter).1, ?_⟩
        intro u hu
        rw [List.mem_singleton.mp hu]
        exact .bracket hword hof hlexemes hcount hne
      · dsimp only
        rw [hbefore, Array.pop_push, Array.toList_push, openAfter_append]
        exact houterOpen
  | openGroup hout => exact (h.flush hout).emit (.parenthesis true) rfl
  | closeGroup hout hcount =>
      obtain ⟨n, hn⟩ := Nat.exists_eq_succ_of_ne_zero hcount
      refine (h.flush hout).emit (.parenthesis false) ?_
      rw [hn]
      rfl

/-- The scanner stays sound at every character. -/
theorem Sound.step (h : s.Sound) (hstep : s.step position c = .ok s') : s'.Sound := by
  obtain ⟨closed, hmoves⟩ := moves_of_step hstep
  have hmarked : Sound { s with closed := closed } := ⟨h.word, h.outer, h.outerOpen, h.inner⟩
  exact hmarked.moves hmoves

theorem Sound.run {text : List Char} (h : s.Sound) (hrun : s.run position text = .ok s') :
    s'.Sound := by
  induction text generalizing s position with
  | nil =>
      cases hrun
      exact h
  | cons c rest ih =>
      rw [Scanner.run] at hrun
      obtain ⟨next, hnext, hrun⟩ := ok_of_bind hrun
      exact ih (h.step hnext) hrun

end Scanner

/-- The tokens of a text are made of its words, and their parentheses match. -/
theorem lexed_of_tokenize {text : String} {ts : List Token} (h : tokenize text = .ok ts) :
    (∀ t ∈ ts, t.Lexed) ∧ openAfter 0 ts = some 0 := by
  obtain ⟨s, hrun, hfinish⟩ := ok_of_bind h
  obtain ⟨hquoting, _, hcount, htokens, _⟩ := Scanner.finish_cases hfinish
  have hflush := (Scanner.Sound.start.run hrun).flush hquoting
  subst htokens
  exact ⟨hflush.outer, hcount ▸ hflush.outerOpen⟩

/-- The tokens of a text are scanned tokens, and their parentheses match. -/
theorem scanned_of_tokenize {text : String} {ts : List Token} (h : tokenize text = .ok ts) :
    (∀ t ∈ ts, t.Scanned) ∧ openAfter 0 ts = some 0 := by
  obtain ⟨hlexed, hopen⟩ := lexed_of_tokenize h
  exact ⟨fun t ht => (hlexed t ht).scanned, hopen⟩

end Scim.Filter
