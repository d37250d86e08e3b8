import Scim.Proofs.Filter.Display
import Scim.Proofs.Filter.Words

/-!
# Scanning displayed tokens

The tokens of a filter, displayed with single spaces between them, are scanned to the same tokens,
and the display has the characters of the filter apart from white space (`tokenize_display`).

Nothing is lost since the scanner keeps every character that is no white space outside of quotes.
What it keeps (`Scanner.kept`) grows by what the next character adds (`Scanner.Sound.kept_moves`),
and at the end it is what the tokens are made of (`Token.chars`).

The display is scanned token by token.  A scanner between two words that reads the display of a
lexeme has that lexeme behind its tokens, inside of brackets as well as outside of them
(`Scanner.Adds`).  The display of a path with a bracket is that of the path and of the lexemes in
the bracket, one after the other.
-/

namespace Scim.Filter

open Scanner (Quoting)

/-! ## White space outside of quotes -/

/-- What is left of a text without the white space outside of quotes. -/
def packed : Quoting → List Char → List Char
  | _, [] => []
  | q, c :: rest =>
      if q = .outside ∧ Text.isBlank c = true then packed (q.after c) rest
      else c :: packed (q.after c) rest

section

variable {q q' : Quoting} {c : Char} {front back : List Char}

theorem packed_cons_of_ne (h : q = .outside → Text.isBlank c = false) :
    packed q (c :: back) = c :: packed (q.after c) back := by
  rw [packed, if_neg]
  rintro ⟨hout, hblank⟩
  cases hblank.symm.trans (h hout)

/-- A word is left as it is. -/
theorem packed_spans (h : Spans q front q') : packed q (front ++ back) = front ++ packed q' back := by
  induction front generalizing q with
  | nil =>
      cases h
      rfl
  | cons c rest ih =>
      obtain ⟨hc, hrest⟩ := h
      rw [List.cons_append, packed_cons_of_ne fun hout => (hc hout).1, ih hrest, List.cons_append]

end

/-! ## Characters of tokens -/

namespace Token

mutual

/-- The characters that a token is made of. -/
def chars : Token → List Char
  | ⟨text, _, .nested tokens⟩ => text.toList ++ '[' :: (charsAll tokens ++ [']'])
  | ⟨text, _, .plain⟩ => text.toList
  | ⟨text, _, .operator _⟩ => text.toList
  | ⟨text, _, .constant _⟩ => text.toList
termination_by structural t => t

/-- The characters that tokens are made of. -/
def charsAll : List Token → List Char
  | [] => []
  | t :: rest => t.chars ++ charsAll rest
termination_by structural ts => ts

end

variable {t : Token} {ts us : List Token} {w name : String} {back : List Char}

theorem charsAll_cons (t : Token) (ts : List Token) :
    charsAll (t :: ts) = t.chars ++ charsAll ts := rfl

theorem charsAll_append : charsAll (ts ++ us) = charsAll ts ++ charsAll us := by
  induction ts with
  | nil => rfl
  | cons t rest ih => rw [List.cons_append, charsAll_cons, charsAll_cons, ih, List.append_assoc]

@[simp] theorem charsAll_singleton : charsAll [t] = t.chars := List.append_nil _

@[simp] theorem chars_path : (path name).chars = name.toList := rfl

@[simp] theorem chars_withFilter :
    (withFilter name ts).chars = name.toList ++ '[' :: (charsAll ts ++ [']']) := rfl

/-- A word makes a token that is displayed as the word. -/
theorem ofWord_display (hword : IsWord w) : (ofWord w).display = w ∧ (ofWord w).chars = w.toList := by
  rcases ofWord_cases hword with ⟨op, _, hof⟩ | ⟨value, hof⟩ | hof
  · rw [hof]
    exact ⟨rfl, rfl⟩
  · rw [hof]
    exact ⟨rfl, rfl⟩
  · rw [hof]
    exact ⟨rfl, rfl⟩

theorem displayAll_cons_cons (t next : Token) (rest : List Token) :
    displayAll (t :: next :: rest) = t.display ++ " " ++ displayAll (next :: rest) := rfl

theorem displayAll_eq (ts : List Token) : displayAll ts = " ".intercalate (ts.map display) := by
  induction ts with
  | nil => rfl
  | cons t rest ih =>
      cases rest with
      | nil => simp [displayAll]
      | cons next rest =>
          have hne : (next :: rest).map display ≠ [] := List.cons_ne_nil _ _
          rw [displayAll_cons_cons, ih, List.map_cons (l := next :: rest),
            String.intercalate_cons_of_ne_nil hne]

/-- The display of a lexeme is its characters, and no quote stays open. -/
theorem Lexeme.packed_display (h : t.Lexeme) :
    packed .outside (t.display.toList ++ back) = t.chars ++ packed .outside back := by
  cases h with
  | word hword =>
      obtain ⟨hdisplay, hchars⟩ := ofWord_display hword
      rw [hdisplay, hchars, packed_spans hword.spans]
  | parenthesis isOpen => cases isOpen <;> rfl

/-- Of tokens with spaces between them, their characters are left. -/
theorem packed_displayAll
    (h : ∀ t ∈ ts, ∀ back : List Char,
      packed .outside (t.display.toList ++ back) = t.chars ++ packed .outside back) :
    packed .outside ((displayAll ts).toList ++ back) = charsAll ts ++ packed .outside back := by
  induction ts with
  | nil => rfl
  | cons t rest ih =>
      obtain ⟨ht, hrest⟩ := List.forall_mem_cons.mp h
      cases rest with
      | nil => exact (ht back).trans (by rw [charsAll_singleton])
      | cons next rest =>
          have htext : (displayAll (t :: next :: rest)).toList ++ back =
              t.display.toList ++ ' ' :: ((displayAll (next :: rest)).toList ++ back) := by
            simp [displayAll_cons_cons]
          have hspace : packed .outside (' ' :: ((displayAll (next :: rest)).toList ++ back)) =
              packed .outside ((displayAll (next :: rest)).toList ++ back) := rfl
          rw [htext, ht, hspace, ih hrest, charsAll_cons t, List.append_assoc]

/-- Of the display of a token, its characters are left. -/
theorem Lexed.packed_display (h : t.Lexed) (back : List Char) :
    packed .outside (t.display.toList ++ back) = t.chars ++ packed .outside back := by
  cases h with
  | lexeme h => exact h.packed_display
  | @bracket name inner hword _ hinner _ _ =>
      have htext : (withFilter name inner).display.toList ++ back =
          name.toList ++ '[' :: ((displayAll inner).toList ++ ']' :: back) := by
        show (name ++ "[" ++ displayAll inner ++ "]").toList ++ back = _
        simp
      have hback : packed .outside (']' :: back) = ']' :: packed .outside back := rfl
      rw [htext, packed_spans hword.spans, packed_cons_of_ne fun _ => by decide]
      show name.toList ++ '[' :: packed .outside ((displayAll inner).toList ++ ']' :: back) = _
      rw [packed_displayAll fun t ht back => (hinner t ht).packed_display, hback, chars_withFilter]
      simp

end Token

/-! ## What the scanner keeps -/

namespace Scanner

variable {s s' t : Scanner} {token : Token} {tokens : Array Token} {position n : Nat} {c : Char}
  {text : List Char} {ts us : List Token}

/-- The characters that the scanner has read and still holds. -/
def kept (s : Scanner) : List Char :=
  Token.charsAll s.outer.toList ++
    ((match s.inner with
      | some tokens => '[' :: Token.charsAll tokens.toList
      | none => []) ++ s.word.toList)

@[simp] theorem kept_setOpenCount (n : Nat) : (s.setOpenCount n).kept = s.kept := by
  unfold setOpenCount
  split <;> rfl

theorem word_flush_setOpenCount : (s.flush.setOpenCount n).word = "" := by
  unfold setOpenCount
  split <;> exact word_flush

/-- Between two words, a token adds its characters. -/
theorem kept_emit (hword : s.word = "") : (s.emit token).kept = s.kept ++ token.chars := by
  cases hinner : s.inner with
  | none => simp [emit, kept, hinner, hword, Token.charsAll_append]
  | some tokens => simp [emit, kept, hinner, hword, Token.charsAll_append]

/-- Ending the pending word loses nothing. -/
theorem Sound.kept_flush (h : s.Sound) (hout : s.quoting = .outside) : s.flush.kept = s.kept := by
  unfold Scanner.flush
  split
  case isTrue => rfl
  case isFalse hempty =>
      have hword : IsWord s.word :=
        ⟨fun hnil => hempty (String.isEmpty_iff.mpr hnil), hout ▸ h.word⟩
      rw [kept_emit rfl, (Token.ofWord_display hword).2]
      simp [kept]

/-- A character adds itself to what the scanner keeps, unless it is white space outside of
quotes. -/
theorem Sound.kept_moves (h : s.Sound) (hmoves : Moves s c s') (back : List Char) :
    s'.kept ++ packed s'.quoting back = s.kept ++ packed s.quoting (c :: back) := by
  cases hmoves with
  | push hc start =>
      rw [packed_cons_of_ne fun hout => (hc hout).1]
      simp [kept]
  | blank hout hblank =>
      have hafter : Quoting.outside.after c = .outside := by
        rw [Quoting.after, if_neg]
        rintro rfl
        exact absurd hblank (by decide)
      rw [h.kept_flush hout, quoting_flush, hout, packed, if_pos ⟨rfl, hblank⟩, hafter]
  | openBracket hout hinner _ _ =>
      have hopened : kept { s.flush with inner := some #[], innerOpen := 0 } =
          s.flush.kept ++ ['['] := by
        simp [kept, hinner, Token.charsAll]
      show kept { s.flush with inner := some #[], innerOpen := 0 } ++
        packed s.flush.quoting back = _
      rw [hopened, h.kept_flush hout, quoting_flush, hout, List.append_assoc]
      rfl
  | @closeBracket path tokens hout hinner _ _ hlast =>
      obtain ⟨_, _, before, name, hbefore, _⟩ := (h.flush hout).inner tokens hinner
      rw [hbefore, Array.back?_push] at hlast
      cases hlast
      have hclosed : kept { s.flush with
          outer := s.flush.outer.pop.push (.withFilter name tokens.toList)
          inner := none
          closed := true } = s.flush.kept ++ [']'] := by
        simp [kept, hinner, hbefore, Token.charsAll_append]
      show kept { s.flush with
          outer := s.flush.outer.pop.push (.withFilter name tokens.toList)
          inner := none
          closed := true } ++ packed s.flush.quoting back = _
      rw [hclosed, h.kept_flush hout, quoting_flush, hout, List.append_assoc]
      rfl
  | openGroup hout =>
      rw [Scanner.openGroup, kept_emit word_flush_setOpenCount, kept_setOpenCount,
        h.kept_flush hout, quoting_emit, quoting_setOpenCount, quoting_flush, hout,
        List.append_assoc]
      rfl
  | closeGroup hout _ =>
      rw [kept_emit word_flush_setOpenCount, kept_setOpenCount, h.kept_flush hout, quoting_emit,
        quoting_setOpenCount, quoting_flush, hout, List.append_assoc]
      rfl

/-- What the scanner keeps of a text is the text without white space outside of quotes. -/
theorem Sound.kept_run (h : s.Sound) (hrun : s.run position text = .ok s') :
    s'.kept = s.kept ++ packed s.quoting text := by
  induction text generalizing s position with
  | nil =>
      cases hrun
      exact (List.append_nil _).symm
  | cons c rest ih =>
      rw [Scanner.run] at hrun
      obtain ⟨next, hnext, hrun⟩ := ok_of_bind hrun
      obtain ⟨closed, hmoves⟩ := moves_of_step hnext
      have hmarked : Sound { s with closed := closed } := ⟨h.word, h.outer, h.outerOpen, h.inner⟩
      rw [ih (h.step hnext) hrun, hmarked.kept_moves hmoves rest]
      rfl

/-! ## Scanning from rest -/

/-- The scanner is between two words, and no parenthesis is counted for a bracket that is not
open. -/
structure Rests (s : Scanner) : Prop where
  word : s.word = ""
  quoting : s.quoting = .outside
  closed : s.closed = false
  innerOpen : s.inner = none → s.innerOpen = 0

/-- The scanner with more tokens where it stands, and with so many parentheses open there. -/
def extend (s : Scanner) (ts : List Token) (n : Nat) : Scanner :=
  match s.inner with
  | some tokens => { s with inner := some (tokens ++ ts), innerOpen := n }
  | none => { s with outer := s.outer ++ ts, outerOpen := n }

/-- The text is scanned to the tokens, which are added where the scanner stands.  The last one may
still be pending, and a bracket may just have been closed. -/
def Adds (s : Scanner) (text : List Char) (ts : List Token) (n : Nat) : Prop :=
  ∀ position, ∃ t start closed, s.run position text = .ok t ∧ t.quoting = .outside ∧
    t.flush = { s.extend ts n with quoteStart := start, closed := closed } ∧
    (closed = true → ∃ u ∈ ts, u.kind = .nestedPath)

theorem flush_closed (closed : Bool) :
    flush { s with closed := closed } = { s.flush with closed := closed } := by
  by_cases hword : s.word.isEmpty = true
  · simp [flush, hword]
  · cases hinner : s.inner with
    | none => simp [flush, emit, hword, hinner]
    | some tokens => simp [flush, emit, hword, hinner]

/-- Adding a token and counting parentheses is an extension. -/
theorem emit_setOpenCount : (s.setOpenCount n).emit token = s.extend [token] n := by
  cases hinner : s.inner with
  | none => simp [setOpenCount, emit, extend, hinner]
  | some tokens => simp [setOpenCount, emit, extend, hinner]

theorem extend_extend (s : Scanner) (ts us : List Token) (m n start : Nat) (closed : Bool) :
    extend { s.extend ts m with quoteStart := start, closed := closed } us n =
      { s.extend (ts ++ us) n with quoteStart := start, closed := closed } := by
  have happend : ∀ tokens : Array Token, tokens ++ ts ++ us = tokens ++ (ts ++ us) :=
    fun tokens => Array.toList_inj.mp (by simp)
  cases hinner : s.inner with
  | none => simp [extend, hinner, happend]
  | some tokens => simp [extend, hinner, happend]

/-- Where an extended scanner stands, as many parentheses are open as it was extended to. -/
theorem openCount_extend (start : Nat) (closed : Bool) :
    openCount { s.extend ts n with quoteStart := start, closed := closed } = n := by
  cases hinner : s.inner with
  | none => simp [openCount, extend, hinner]
  | some tokens => simp [openCount, extend, hinner]

theorem Rests.extend (h : s.Rests) (ts : List Token) (n start : Nat) :
    Rests { s.extend ts n with quoteStart := start, closed := false } := by
  cases hinner : s.inner with
  | none =>
      rw [Scanner.extend, hinner]
      exact ⟨h.word, h.quoting, rfl, fun _ => h.innerOpen hinner⟩
  | some tokens =>
      rw [Scanner.extend, hinner]
      exact ⟨h.word, h.quoting, rfl, nofun⟩

/-- A word is added as its token. -/
theorem adds_word {w : String} (h : s.Rests) (hword : IsWord w) :
    s.Adds w.toList [.ofWord w] s.openCount := by
  intro position
  have hspans : Spans s.quoting w.toList .outside := h.quoting ▸ hword.spans
  obtain ⟨start, hrun⟩ := run_spans position h.closed hspans
  rw [h.word, String.empty_append, String.ofList_toList] at hrun
  have hempty : ¬ w.isEmpty = true := fun hempty => hword.nonempty (String.isEmpty_iff.mp hempty)
  refine ⟨_, start, false, hrun, rfl, ?_, nofun⟩
  cases hinner : s.inner with
  | none => simp [flush, hempty, emit, extend, openCount, hinner, h.closed, h.word, h.quoting]
  | some tokens => simp [flush, hempty, emit, extend, openCount, hinner, h.closed, h.word, h.quoting]

/-- A parenthesis is added and counted. -/
theorem adds_parenthesis {isOpen : Bool} (h : s.Rests)
    (hcount : openAfter s.openCount [.parenthesis isOpen] = some n) :
    s.Adds [if isOpen then '(' else ')'] [.parenthesis isOpen] n := by
  intro position
  have hflush := flush_of_word h.word
  refine ⟨{ s.extend [.parenthesis isOpen] n with quoteStart := s.quoteStart, closed := false },
    s.quoteStart, false, ?_, (h.extend _ n _).quoting, flush_of_word (h.extend _ n _).word, nofun⟩
  have hstate : { s.extend [.parenthesis isOpen] n with quoteStart := s.quoteStart, closed := false } =
      (s.setOpenCount n).emit (.parenthesis isOpen) := by
    rw [emit_setOpenCount]
    cases hinner : s.inner with
    | none => simp [Scanner.extend, hinner, h.closed]
    | some tokens => simp [Scanner.extend, hinner, h.closed]
  rw [run, step_of_outside h.quoting h.closed, hstate]
  cases isOpen with
  | true =>
      cases hcount
      show (Except.ok s.openGroup >>= _) = _
      rw [openGroup, hflush]
      rfl
  | false =>
      show (s.closeGroup >>= _) = _
      rw [closeGroup, hflush]
      by_cases hzero : s.openCount = 0
      · rw [hzero] at hcount
        cases hcount
      · have hn : s.openCount - 1 = n := by
          rw [openAfter, if_neg (by decide), if_neg (by decide), if_neg hzero] at hcount
          exact Option.some.inj hcount
        rw [if_neg hzero, hn]
        rfl

/-- A lexeme is added and counted. -/
theorem adds_lexeme (h : s.Rests) (ht : token.Lexeme)
    (hcount : openAfter s.openCount [token] = some n) :
    s.Adds token.display.toList [token] n := by
  cases ht with
  | @word w hword =>
      rw [openAfter_cons_of_ne (Token.atom_ofWord hword).2] at hcount
      cases hcount
      rw [(Token.ofWord_display hword).1]
      exact adds_word h hword
  | parenthesis isOpen =>
      have hadds := adds_parenthesis h hcount
      cases isOpen <;> exact hadds

/-- A space ends the pending word, behind a bracket too. -/
theorem step_space (position : Nat) (hquoting : s.quoting = .outside) :
    s.step position ' ' = .ok { s.flush with closed := false } := by
  have hblank : Text.isBlank ' ' = true := by decide
  rw [step, if_neg (not_not_intro hquoting), hblank, Bool.true_or, Bool.not_true, Bool.and_false,
    if_neg Bool.false_ne_true, ← flush_closed]
  rfl

/-- Tokens with spaces between them are added if each of them is, from every scanner with some
property that extending keeps. -/
theorem adds_displayAll {P : Scanner → Prop} (hs : P s) (h : s.Rests) (hne : ts ≠ [])
    (hcount : openAfter s.openCount ts = some n)
    (hP : ∀ (s : Scanner) ts n start, P s →
      P { s.extend ts n with quoteStart := start, closed := false })
    (hts : ∀ t ∈ ts, ∀ (s : Scanner) n, P s → s.Rests → openAfter s.openCount [t] = some n →
      s.Adds t.display.toList [t] n) :
    s.Adds (Token.displayAll ts).toList ts n := by
  -- The space behind a token puts the scanner to rest again, so the rest is read from there.
  induction ts generalizing s with
  | nil => exact absurd rfl hne
  | cons t rest ih =>
      obtain ⟨ht, hrest⟩ := List.forall_mem_cons.mp hts
      cases rest with
      | nil => exact ht s n hs h hcount
      | cons next rest =>
          intro position
          have hsplit : openAfter s.openCount ([t] ++ next :: rest) = some n := hcount
          rw [openAfter_append] at hsplit
          obtain ⟨m, hm, hn⟩ := Option.bind_eq_some_iff.mp hsplit
          obtain ⟨u, start, closed, hrun, hquoting, hflush, _⟩ := ht s m hs h hm position
          have hspace : ∀ position, u.step position ' ' =
              .ok { s.extend [t] m with quoteStart := start, closed := false } := by
            intro position
            rw [step_space position hquoting, hflush]
          have hadds := ih (hP s [t] m start hs) (h.extend [t] m start) (List.cons_ne_nil _ _)
            (by rw [openCount_extend]; exact hn) hrest
          obtain ⟨v, start', closed', hrun', hquoting', hflush', hclosed'⟩ := hadds _
          refine ⟨v, start', closed', ?_, hquoting', ?_, ?_⟩
          · rw [Token.displayAll_cons_cons, String.toList_append, String.toList_append,
              List.append_assoc, run_append, hrun, ok_bind]
            show (u.step _ ' ' >>= _) = _
            rw [hspace, ok_bind]
            exact hrun'
          · rw [hflush', extend_extend]
            rfl
          · intro hbracket
            obtain ⟨w, hw, hkind⟩ := hclosed' hbracket
            exact ⟨w, List.mem_cons_of_mem _ hw, hkind⟩

/-- Lexemes with spaces between them are added, inside of brackets and outside of them. -/
theorem adds_lexemes (h : s.Rests) (hne : ts ≠ []) (hts : ∀ t ∈ ts, t.Lexeme)
    (hcount : openAfter s.openCount ts = some n) :
    s.Adds (Token.displayAll ts).toList ts n :=
  adds_displayAll (P := fun _ => True) trivial h hne hcount (fun _ _ _ _ _ => trivial)
    fun t ht _ _ _ hrests => adds_lexeme hrests (hts t ht)

/-- A bracket opens behind a path. -/
theorem openBracket_eq (position : Nat) (hinner : s.flush.inner = none)
    (hlast : s.flush.outer.back? = some token) (hkind : token.kind = .path) :
    s.openBracket position = .ok { s.flush with inner := some #[], innerOpen := 0 } := by
  unfold openBracket
  dsimp only
  rw [hinner, hlast]
  exact if_pos hkind

/-- A bracket closes behind tokens without an open parenthesis. -/
theorem closeBracket_eq (position : Nat) (hinner : s.flush.inner = some tokens)
    (hopen : s.flush.innerOpen = 0) (hne : tokens.toList ≠ [])
    (hlast : s.flush.outer.back? = some token) :
    s.closeBracket position = .ok { s.flush with
      outer := s.flush.outer.pop.push (.withFilter token.text tokens.toList)
      inner := none
      closed := true } := by
  have hsome : ¬ s.inner.isNone = true := by
    intro hnone
    rw [inner_flush (Option.isNone_iff_eq_none.mp hnone)] at hinner
    cases hinner
  have hempty : ¬ tokens.toList.isEmpty = true := fun hnil => hne (List.isEmpty_iff.mp hnil)
  unfold closeBracket
  rw [if_neg hsome]
  dsimp only
  rw [if_neg (not_not_intro hopen), hinner, Option.getD_some, if_neg hempty, hlast]

/-- Outside of brackets, a path with a bracket is added. -/
theorem adds_bracket {name : String} (h : s.Rests) (hinner : s.inner = none) (hword : IsWord name)
    (hpath : Token.ofWord name = .path name) (hts : ∀ t ∈ ts, t.Lexeme)
    (hcount : openAfter 0 ts = some 0) (hne : ts ≠ []) :
    s.Adds (Token.withFilter name ts).display.toList [.withFilter name ts] s.openCount := by
  intro position
  have htext : (Token.withFilter name ts).display.toList =
      name.toList ++ '[' :: ((Token.displayAll ts).toList ++ [']']) := by
    show (name ++ "[" ++ Token.displayAll ts ++ "]").toList = _
    simp
  -- The path is pending, and the bracket opens behind it.
  obtain ⟨t, start, closed, hrun, hquoting, hflush, hbare⟩ := adds_word h hword position
  obtain rfl : closed = false := Bool.eq_false_iff.mpr fun hclosed => by
    obtain ⟨u, hu, hkind⟩ := hbare hclosed
    rw [List.mem_singleton.mp hu, hpath] at hkind
    cases hkind
  rw [extend, hinner, hpath] at hflush
  have hlast : t.flush.outer.back? = some (.path name) := by simp [hflush]
  have hopened : ∀ position, t.step position '[' =
      .ok { t.flush with inner := some #[], innerOpen := 0 } := by
    intro position
    rw [step_of_outside hquoting (by rw [← closed_flush, hflush])]
    exact openBracket_eq position (by rw [hflush]) hlast rfl
  have hrests : Rests { t.flush with inner := some #[], innerOpen := 0 } :=
    ⟨word_flush, quoting_flush.trans hquoting, by rw [hflush], nofun⟩
  -- The lexemes are read in the bracket, and it closes behind them.
  obtain ⟨u, start', closed, hrun', hquoting', hflush', hbare'⟩ :=
    adds_lexemes hrests hne hts hcount (position + Text.byteSize name.toList + '['.utf8Size)
  obtain rfl : closed = false := Bool.eq_false_iff.mpr fun hclosed => by
    obtain ⟨v, hv, hkind⟩ := hbare' hclosed
    exact (hts v hv).atom.kind_ne_nestedPath hkind
  have hinner' : u.flush.inner = some ts.toArray := by rw [hflush']; simp [extend]
  have hlast' : u.flush.outer.back? = some (.path name) := by rw [hflush']; exact hlast
  have hclosed : ∀ position, u.step position ']' = .ok { u.flush with
      outer := u.flush.outer.pop.push (.withFilter name ts)
      inner := none
      closed := true } := by
    intro position
    rw [step_of_outside hquoting' (by rw [← closed_flush, hflush'])]
    exact closeBracket_eq position hinner' (by rw [hflush']; rfl) (by simpa using hne) hlast'
  refine ⟨{ u.flush with
      outer := u.flush.outer.pop.push (.withFilter name ts)
      inner := none
      closed := true }, start', true, ?_, quoting_flush.trans hquoting', ?_,
    fun _ => ⟨_, List.mem_singleton.mpr rfl, rfl⟩⟩
  · rw [htext, run_append, hrun, ok_bind, run, hopened, ok_bind, run_append, hrun', ok_bind, run,
      hclosed]
    rfl
  · rw [hflush', hflush]
    simp [flush, extend, hinner, h.word, h.innerOpen hinner]

end Scanner

/-! ## Whole texts -/

/-- Tokens as a text is cut into, displayed with spaces between them, are scanned to themselves. -/
theorem tokenize_displayAll {ts : List Token} (hts : ∀ t ∈ ts, t.Lexed)
    (hcount : openAfter 0 ts = some 0) (hne : ts ≠ []) : tokenize (Token.displayAll ts) = .ok ts := by
  have hadds : Scanner.Adds {} (Token.displayAll ts).toList ts 0 := by
    refine Scanner.adds_displayAll (P := fun s => s.inner = none) rfl ⟨rfl, rfl, rfl, fun _ => rfl⟩
      hne hcount ?_ ?_
    · intro s us n start hinner
      simp [Scanner.extend, hinner]
    · intro t ht s n hinner hrests hn
      cases hts t ht with
      | lexeme hlexeme => exact Scanner.adds_lexeme hrests hlexeme hn
      | bracket hword hpath hlexemes hclosed hnonempty =>
          cases hn
          exact Scanner.adds_bracket hrests hinner hword hpath hlexemes hclosed hnonempty
  obtain ⟨t, start, closed, hrun, hquoting, hflush, _⟩ := hadds 0
  rw [tokenize, hrun, ok_bind, Scanner.finish, if_neg (not_not_intro hquoting), hflush]
  simp [Scanner.extend, hne]

/-- The characters of the tokens of a text are those of the text without white space outside of
quotes. -/
theorem packed_of_tokenize {text : String} {ts : List Token} (h : tokenize text = .ok ts) :
    packed .outside text.toList = Token.charsAll ts := by
  obtain ⟨s, hrun, hfinish⟩ := ok_of_bind h
  obtain ⟨hquoting, hinner, _, htokens, _⟩ := Scanner.finish_cases hfinish
  have hkept := Scanner.Sound.start.kept_run hrun
  rw [← (Scanner.Sound.start.run hrun).kept_flush hquoting] at hkept
  rw [← htokens]
  simpa [Scanner.kept, hinner, Token.charsAll] using hkept.symm

/-- The display of the tokens of a text is scanned to the same tokens, and without white space
outside of quotes it is the text. -/
theorem tokenize_display {text : String} {ts : List Token} (h : tokenize text = .ok ts) :
    tokenize (" ".intercalate (ts.map Token.display)) = .ok ts ∧
      packed .outside (" ".intercalate (ts.map Token.display)).toList =
        packed .outside text.toList := by
  obtain ⟨hlexed, hcount⟩ := lexed_of_tokenize h
  obtain ⟨_, _, hfinish⟩ := ok_of_bind h
  obtain ⟨_, _, _, _, hne⟩ := Scanner.finish_cases hfinish
  have hpacked : packed .outside ((Token.displayAll ts).toList ++ []) = _ :=
    Token.packed_displayAll fun t ht => (hlexed t ht).packed_display
  rw [← Token.displayAll_eq, packed_of_tokenize h]
  exact ⟨tokenize_displayAll hlexed hcount hne, by simpa [packed] using hpacked⟩

/-- The tokens of a filter with no space or several between words are displayed with one, but what
is between quotes stays. -/
theorem tokenize_display_spaces :
    ∃ ts, tokenize "not(emails[ type  eq\t\"a  (b\"])or x\"y  z\" pr" = .ok ts ∧
      " ".intercalate (ts.map Token.display) =
        "not ( emails[type eq \"a  (b\"] ) or x\"y  z\" pr" ∧
      tokenize (" ".intercalate (ts.map Token.display)) = .ok ts ∧
      packed .outside (" ".intercalate (ts.map Token.display)).toList =
        packed .outside "not(emails[ type  eq\t\"a  (b\"])or x\"y  z\" pr".toList := by
  have htext : tokenize "not(emails[ type  eq\t\"a  (b\"])or x\"y  z\" pr" =
      .ok [.ofOperator "not" .not, .parenthesis true,
        .withFilter "emails" [.path "type", .ofOperator "eq" .eq,
          ⟨"\"a  (b\"", .constant, .constant (.string "a  (b")⟩],
        .parenthesis false, .ofOperator "or" .or, .path "x\"y  z\"", .ofOperator "pr" .pr] := rfl
  exact ⟨_, htext, rfl, tokenize_display htext⟩

end Scim.Filter
