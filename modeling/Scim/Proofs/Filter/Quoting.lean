import Scim.Proofs.Filter.Display

/-!
# Strings of any content

A text is *quoted* by a backslash in front of every backslash and every quote, and a quote at each
end.  Whatever it is, the scanner takes it for one word, and the word is the string of that text
(`Token.ofWord_quote`).  So nothing in the text can end the string or become a token of its own.

What stands behind the string is scanned in the same way whatever the string is.  Two scanners that
have read the same but for one string differ in one finished token and in positions
(`Scanner.Agree`), and no character makes them differ in anything else.  A bracket cannot open
behind a string, so the text of that token is never looked at.
-/

namespace Scim.Filter

/-! ## Quoting -/

/-- A text with a backslash in front of every backslash and every quote. -/
def escape : List Char → List Char
  | [] => []
  | c :: rest => if c = '\\' ∨ c = '"' then '\\' :: c :: escape rest else c :: escape rest

/-- A text as a string of a filter. -/
def quote (s : String) : String := "\"" ++ String.ofList (escape s.toList) ++ "\""

/-- The token of a string. -/
def Token.string (s : String) : Token := ⟨quote s, .constant, .constant (.string s)⟩

section

variable {c : Char} {s : String}

theorem toList_quote (s : String) : (quote s).toList = '"' :: (escape s.toList ++ ['"']) := by
  simp [quote]

/-- A character that is no backslash stands for itself between quotes. -/
theorem Constant.unescape_cons (h : c ≠ '\\') (rest : List Char) :
    Constant.unescape (c :: rest) = c :: Constant.unescape rest := by
  rw [Constant.unescape.eq_def]
  split <;> simp_all

/-- What has been escaped stands for itself. -/
theorem Constant.unescape_escape (text : List Char) :
    Constant.unescape (escape text) = text := by
  induction text with
  | nil => rfl
  | cons c rest ih =>
      rw [escape]
      split
      case isTrue hc =>
          have hself : Constant.escaped c = c := by rcases hc with rfl | rfl <;> rfl
          rw [Constant.unescape, ih, hself]
      case isFalse hc => rw [Constant.unescape_cons (fun h => hc (.inl h)), ih]

/-- Escaped characters stay between the quotes around them. -/
theorem spans_escape (text : List Char) : Spans .inside (escape text) .inside := by
  induction text with
  | nil => rfl
  | cons c rest ih =>
      rw [escape]
      split
      case isTrue => exact ⟨nofun, nofun, ih⟩
      case isFalse hc =>
          obtain ⟨hslash, hquote⟩ := not_or.mp hc
          have hafter : Scanner.Quoting.inside.after c = .inside := by
            rw [Scanner.Quoting.after, if_neg hslash, if_neg hquote]
          exact ⟨nofun, hafter.symm ▸ ih⟩

/-- A quoted text is scanned as one word. -/
theorem isWord_quote (s : String) : IsWord (quote s) := by
  refine ⟨fun hempty => ?_, ?_⟩
  · have hlist := toList_quote s
    rw [hempty] at hlist
    cases hlist
  · rw [toList_quote]
    exact ⟨fun _ => by decide, (spans_escape s.toList).append ⟨nofun, rfl⟩⟩

/-- A quoted text is the string of the text. -/
theorem Token.ofWord_quote (s : String) : Token.ofWord (quote s) = Token.string s := by
  have hlist := toList_quote s
  have hkeyword : Operator.ofWord? (quote s) = none := by
    refine List.find?_eq_none.mpr fun op _ halike => ?_
    have hfolded := congrArg List.head? (Text.alike_iff.mp halike)
    rw [Text.folded, Text.folded, hlist, List.map_cons, List.head?_cons] at hfolded
    exact absurd hfolded (by cases op <;> decide)
  have hparen : ¬ (quote s = "(" ∨ quote s = ")") := by
    rintro (h | h) <;> exact absurd (hlist.symm.trans (congrArg String.toList h)) (by simp)
  have hconstant : Constant.ofWord? (quote s) = some (.string s) := by
    rw [Constant.ofWord?, hlist, Constant.unquoted?, List.getLast?_concat, if_pos rfl,
      List.dropLast_concat]
    dsimp only
    rw [Constant.unescape_escape, String.ofList_toList]
  rw [Token.ofWord, hkeyword]
  dsimp only
  rw [if_neg hparen, hconstant]
  rfl

end

/-! ## Holes -/

/-- A place for one token among tokens. -/
inductive Hole where
  /-- Outside of brackets. -/
  | outside (front back : List Token)
  /-- In the bracket behind a path. -/
  | bracket (front : List Token) (path : String) (before after back : List Token)

namespace Hole

/-- The tokens with a token in the hole. -/
def fill (t : Token) : Hole → List Token
  | outside front back => front ++ t :: back
  | bracket front path before after back =>
      front ++ .withFilter path (before ++ t :: after) :: back

/-- The hole with one more token at the end of the tokens. -/
def push (x : Token) : Hole → Hole
  | outside front back => .outside front (back ++ [x])
  | bracket front path before after back => .bracket front path before after (back ++ [x])

/-- The hole is where a scanner stands, behind the tokens that it has finished. -/
def IsAt (s : Scanner) : Hole → Prop
  | outside front _ => s.inner = none ∧ s.outer.toList = front
  | bracket front path before _ _ =>
      s.inner = some before.toArray ∧ s.outer.toList = front ++ [.path path]

variable {hole : Hole} {start : Scanner} {t : Token}

@[simp] theorem fill_push (x : Token) : (hole.push x).fill t = hole.fill t ++ [x] := by
  cases hole <;> simp [push, fill]

@[simp] theorem isAt_push (x : Token) : (hole.push x).IsAt start ↔ hole.IsAt start := by
  cases hole <;> rfl

theorem fill_ne_nil : hole.fill t ≠ [] := by
  cases hole <;> simp [fill]

/-- Behind the hole there is another token, or the last token is no path. -/
theorem push_or_last (hole : Hole) : (∃ before x, hole = Hole.push x before) ∨
    ∀ t : Token, t.kind ≠ .path → ∃ front x, hole.fill t = front ++ [x] ∧ x.kind ≠ .path := by
  rcases hole with ⟨front, back⟩ | ⟨front, path, before, after, back⟩
  · rcases back.eq_nil_or_concat with rfl | ⟨init, x, rfl⟩
    · exact .inr fun t ht => ⟨front, t, rfl, ht⟩
    · exact .inl ⟨.outside front init, x, by simp [push]⟩
  · rcases back.eq_nil_or_concat with rfl | ⟨init, x, rfl⟩
    · exact .inr fun t _ => ⟨front, _, rfl, nofun⟩
    · exact .inl ⟨.bracket front path before after init, x, by simp [push]⟩

end Hole

/-! ## Errors and their positions -/

/-- An error without its position. -/
def Error.unplaced : Error → Error
  | unterminatedString _ => .unterminatedString 0
  | nestingTooDeep _ => .nestingTooDeep 0
  | mismatchedBracket _ => .mismatchedBracket 0
  | danglingFilter _ => .danglingFilter 0
  | unexpectedAfterFilter found _ => .unexpectedAfterFilter found 0
  | e => e

/-- Two results that are related, or the same error up to its position. -/
abbrev SameOutcome {α : Type} (related : α → α → Prop) : Except Error α → Except Error α → Prop :=
  Parallel (fun e e' => e.unplaced = e'.unplaced) related

/-! ## Scanners that agree -/

namespace Scanner

/-- Two scanners have finished the same tokens, outside of brackets and in an open one, but for `u`
and `v` in a hole. -/
inductive SameBut (u v : Token) (s t : Scanner) : Hole → Prop
  /-- No bracket is open around the hole, and one that is open has a path behind the hole. -/
  | finished {hole : Hole} (hu : s.outer.toList = hole.fill u) (hv : t.outer.toList = hole.fill v)
      (hinner : t.inner = s.inner)
      (hpath : s.inner.isSome = true → ∃ before x, hole = Hole.push x before) :
      SameBut u v s t hole
  /-- The bracket around the hole is open. -/
  | pending {front before after : List Token} {path : String} {tokens tokens' : Array Token}
      (hs : s.inner = some tokens) (ht : t.inner = some tokens') (houter : t.outer = s.outer)
      (hfront : s.outer.toList = front ++ [.path path]) (hu : tokens.toList = before ++ u :: after)
      (hv : tokens'.toList = before ++ v :: after) :
      SameBut u v s t (.bracket front path before after [])

/-- Two scanners that have read the same but for one token, which is `u` for the one and `v` for
the other.  It came when they were where `start` is.  Their positions may differ. -/
structure Agree (start : Scanner) (u v : Token) (s t : Scanner) : Prop where
  word : t.word = s.word
  quoting : t.quoting = s.quoting
  closed : t.closed = s.closed
  outerOpen : t.outerOpen = s.outerOpen
  innerOpen : t.innerOpen = s.innerOpen
  tokens : ∃ hole : Hole, hole.IsAt start ∧ SameBut u v s t hole

variable {start s t s' t' : Scanner} {u v x : Token} {hole : Hole} {c : Char} {text : List Char}
  {tokens : Array Token}

theorem emit_of_none (h : s.inner = none) : s.emit x = { s with outer := s.outer.push x } := by
  rw [emit, h]

theorem emit_of_some (h : s.inner = some tokens) :
    s.emit x = { s with inner := some (tokens.push x) } := by
  rw [emit, h]

theorem isSome_inner_emit : (s.emit x).inner.isSome = s.inner.isSome := by
  unfold emit
  split
  case h_1 hinner => rw [hinner]; rfl
  case h_2 => rfl

@[simp] theorem isSome_inner_flush : s.flush.inner.isSome = s.inner.isSome := by
  unfold flush
  split
  case isTrue => rfl
  case isFalse => exact isSome_inner_emit

theorem back?_of_toList {tokens : Array Token} {front : List Token}
    (h : tokens.toList = front ++ [x]) : tokens.back? = some x := by
  rw [← Array.getLast?_toList, h, List.getLast?_concat]

/-- What has been finished depends on the finished tokens only. -/
theorem SameBut.of_eq (h : SameBut u v s t hole) (hs : s'.outer = s.outer)
    (hs' : s'.inner = s.inner) (ht : t'.outer = t.outer) (ht' : t'.inner = t.inner) :
    SameBut u v s' t' hole := by
  cases h with
  | finished hu hv hinner hpath =>
      exact .finished (hs ▸ hu) (ht ▸ hv) (by rw [ht', hs', hinner]) (hs' ▸ hpath)
  | pending hsi hti houter hfront hu hv =>
      exact .pending (hs'.trans hsi) (ht'.trans hti) (by rw [ht, hs, houter]) (hs ▸ hfront) hu hv

theorem SameBut.isSome_inner (h : SameBut u v s t hole) : t.inner.isSome = s.inner.isSome := by
  cases h with
  | finished _ _ hinner _ => rw [hinner]
  | pending hs ht => rw [hs, ht]; rfl

namespace Agree

/-- Finished tokens stay as they are while nothing is finished. -/
theorem tokens_congr (h : Agree start u v s t) (hs : s'.outer = s.outer)
    (hs' : s'.inner = s.inner) (ht : t'.outer = t.outer) (ht' : t'.inner = t.inner) :
    ∃ hole : Hole, hole.IsAt start ∧ SameBut u v s' t' hole := by
  obtain ⟨hole, hat, hsame⟩ := h.tokens
  exact ⟨hole, hat, hsame.of_eq hs hs' ht ht'⟩

theorem isSome_inner (h : Agree start u v s t) : t.inner.isSome = s.inner.isSome := by
  obtain ⟨_, _, hsame⟩ := h.tokens
  exact hsame.isSome_inner

/-- The open bracket has tokens for both or for none. -/
theorem isEmpty_inner (h : Agree start u v s t) :
    (t.inner.getD #[]).toList.isEmpty = (s.inner.getD #[]).toList.isEmpty := by
  obtain ⟨_, _, hsame⟩ := h.tokens
  cases hsame with
  | finished _ _ hinner _ => rw [hinner]
  | @pending _ before => cases before <;> simp [*]

/-- Both take in a token. -/
theorem emit (h : Agree start u v s t) (x : Token) : Agree start u v (s.emit x) (t.emit x) := by
  obtain ⟨hole, hat, hsame⟩ := h.tokens
  cases hsame with
  | finished hu hv hinner hpath =>
      cases hs : s.inner with
      | none =>
          rw [emit_of_none hs, emit_of_none (hinner.trans hs)]
          exact ⟨h.word, h.quoting, h.closed, h.outerOpen, h.innerOpen, hole.push x,
            (Hole.isAt_push x).mpr hat,
            .finished (by simp [hu]) (by simp [hv]) hinner (by simp [hs])⟩
      | some tokens =>
          rw [emit_of_some hs, emit_of_some (hinner.trans hs)]
          exact ⟨h.word, h.quoting, h.closed, h.outerOpen, h.innerOpen, hole, hat,
            .finished hu hv rfl fun _ => hpath (by rw [hs]; rfl)⟩
  | @pending front before after path tokens tokens' hs ht houter hfront hu hv =>
      rw [emit_of_some hs, emit_of_some ht]
      exact ⟨h.word, h.quoting, h.closed, h.outerOpen, h.innerOpen,
        .bracket front path before (after ++ [x]) [], hat,
        .pending rfl rfl houter hfront (by simp [hu]) (by simp [hv])⟩

/-- Both end the pending word. -/
theorem flush (h : Agree start u v s t) : Agree start u v s.flush t.flush := by
  unfold Scanner.flush
  rw [h.word]
  split
  case isTrue => exact h
  case isFalse =>
      refine emit (s := { s with word := "" }) (t := { t with word := "" }) ?_ _
      exact ⟨rfl, h.quoting, h.closed, h.outerOpen, h.innerOpen, h.tokens_congr rfl rfl rfl rfl⟩

theorem openCount (h : Agree start u v s t) : t.openCount = s.openCount := by
  rw [Scanner.openCount, Scanner.openCount, h.isSome_inner, h.innerOpen, h.outerOpen]

/-- Both count open parentheses alike. -/
theorem setOpenCount (h : Agree start u v s t) (n : Nat) :
    Agree start u v (s.setOpenCount n) (t.setOpenCount n) := by
  rw [Scanner.setOpenCount, Scanner.setOpenCount, h.isSome_inner]
  split
  case isTrue =>
      exact ⟨h.word, h.quoting, h.closed, h.outerOpen, rfl, h.tokens_congr rfl rfl rfl rfl⟩
  case isFalse =>
      exact ⟨h.word, h.quoting, h.closed, rfl, h.innerOpen, h.tokens_congr rfl rfl rfl rfl⟩

/-- Both take a character into the pending word. -/
theorem push (h : Agree start u v s t) (c : Char) :
    Agree start u v { s with word := s.word.push c } { t with word := t.word.push c } :=
  ⟨by rw [h.word], h.quoting, h.closed, h.outerOpen, h.innerOpen, h.tokens_congr rfl rfl rfl rfl⟩

/-- Both come to the same quoting. -/
theorem requote (h : Agree start u v s t) (q : Quoting) (position position' : Nat) :
    Agree start u v { s with quoting := q, quoteStart := position }
      { t with quoting := q, quoteStart := position' } :=
  ⟨h.word, rfl, h.closed, h.outerOpen, h.innerOpen, h.tokens_congr rfl rfl rfl rfl⟩

theorem unclosed (h : Agree start u v s t) :
    Agree start u v { s with closed := false } { t with closed := false } :=
  ⟨h.word, h.quoting, rfl, h.outerOpen, h.innerOpen, h.tokens_congr rfl rfl rfl rfl⟩

/-- Both open a group. -/
theorem openGroup (h : Agree start u v s t) : Agree start u v s.openGroup t.openGroup := by
  unfold Scanner.openGroup
  dsimp only
  rw [h.flush.openCount]
  exact (h.flush.setOpenCount _).emit _

/-- Both close a group, or none is open. -/
theorem closeGroup (h : Agree start u v s t) :
    SameOutcome (Agree start u v) s.closeGroup t.closeGroup := by
  unfold Scanner.closeGroup
  dsimp only
  rw [h.flush.openCount]
  split
  case isTrue => exact .error rfl
  case isFalse => exact .ok ((h.flush.setOpenCount _).emit _)

/-- Both open a bracket, which needs a path behind the hole, or both fail. -/
theorem openBracket (h : Agree start u v s t) (hu : u.kind ≠ .path) (hv : v.kind ≠ .path)
    (position position' : Nat) :
    SameOutcome (Agree start u v) (s.openBracket position) (t.openBracket position') := by
  unfold Scanner.openBracket
  dsimp only
  rw [h.flush.isSome_inner]
  split
  case isTrue => exact .error rfl
  case isFalse hinner =>
      obtain ⟨hole, hat, hsame⟩ := h.flush.tokens
      cases hsame with
      | pending hs => exact absurd (by rw [hs]; rfl) hinner
      | finished hfu hfv =>
          rcases hole.push_or_last with ⟨before, x, rfl⟩ | hlast
          · rw [Hole.fill_push] at hfu hfv
            rw [back?_of_toList hfu, back?_of_toList hfv]
            dsimp only
            split
            case isTrue =>
                exact .ok ⟨h.flush.word, h.flush.quoting, h.flush.closed, h.flush.outerOpen, rfl,
                  before.push x, hat, .finished (by simp [hfu]) (by simp [hfv]) rfl
                    fun _ => ⟨before, x, rfl⟩⟩
            case isFalse => exact .error rfl
          · obtain ⟨front, x, hx, hkind⟩ := hlast u hu
            obtain ⟨front', x', hx', hkind'⟩ := hlast v hv
            rw [back?_of_toList (hfu.trans hx), back?_of_toList (hfv.trans hx')]
            dsimp only
            rw [if_neg hkind, if_neg hkind']
            exact .error rfl

/-- Both close a bracket, or both fail. -/
theorem closeBracket (h : Agree start u v s t) (position position' : Nat) :
    SameOutcome (Agree start u v) (s.closeBracket position) (t.closeBracket position') := by
  have hflush := h.flush
  unfold Scanner.closeBracket
  rw [← Option.not_isSome, ← Option.not_isSome, h.isSome_inner]
  split
  case isTrue => exact .error rfl
  case isFalse hinner =>
      dsimp only
      rw [hflush.innerOpen, hflush.isEmpty_inner]
      split
      case isTrue => exact .error rfl
      case isFalse =>
          split
          case isTrue => exact .error rfl
          case isFalse =>
              obtain ⟨hole, hat, hsame⟩ := hflush.tokens
              cases hsame with
              | finished hu hv hinner' hpath =>
                  have hopen : s.flush.inner.isSome = true := by
                    rw [isSome_inner_flush, ← Bool.not_eq_false, ← Bool.not_eq_true']
                    exact hinner
                  obtain ⟨before, x, rfl⟩ := hpath hopen
                  rw [Hole.fill_push] at hu hv
                  rw [back?_of_toList hu, back?_of_toList hv, hinner']
                  refine .ok ⟨hflush.word, hflush.quoting, rfl, hflush.outerOpen, rfl,
                    before.push (.withFilter x.text (s.flush.inner.getD #[]).toList), ?_,
                    .finished ?_ ?_ rfl nofun⟩
                  · simpa using hat
                  · simp [hu]
                  · simp [hv]
              | @pending front before after path tokens tokens' hs ht houter hfront hu hv =>
                  rw [houter, back?_of_toList hfront, hs, ht]
                  refine .ok ⟨hflush.word, hflush.quoting, rfl, hflush.outerOpen, rfl,
                    .bracket front path before after [], hat, .finished ?_ ?_ rfl nofun⟩
                  · simp [hfront, hu, Hole.fill, Token.path]
                  · simp [hfront, hv, Hole.fill, Token.path]

/-- Both take a character outside of quotes, or both fail. -/
theorem plainChar (h : Agree start u v s t) (hu : u.kind ≠ .path) (hv : v.kind ≠ .path)
    (position position' : Nat) (c : Char) :
    SameOutcome (Agree start u v) (s.plainChar position c) (t.plainChar position' c) := by
  unfold Scanner.plainChar
  split
  case isTrue => exact .ok ((h.push c).requote .inside position position')
  case isFalse =>
      split
      case isTrue => exact .ok h.flush
      case isFalse =>
          split
          case isTrue => exact h.openBracket hu hv position position'
          case isFalse =>
              split
              case isTrue => exact h.closeBracket position position'
              case isFalse =>
                  split
                  case isTrue => exact .ok h.openGroup
                  case isFalse =>
                      split
                      case isTrue => exact h.closeGroup
                      case isFalse =>
                          exact .ok (h.push c)

/-- Both take a character between quotes. -/
theorem quotedChar (h : Agree start u v s t) (c : Char) :
    Agree start u v (s.quotedChar c) (t.quotedChar c) := by
  unfold Scanner.quotedChar
  rw [h.quoting]
  exact (h.push c).requote _ s.quoteStart t.quoteStart

/-- Both take a character, or both fail. -/
theorem step (h : Agree start u v s t) (hu : u.kind ≠ .path) (hv : v.kind ≠ .path)
    (position position' : Nat) (c : Char) :
    SameOutcome (Agree start u v) (s.step position c) (t.step position' c) := by
  unfold Scanner.step
  by_cases hout : s.quoting = .outside
  · rw [if_neg (not_not_intro hout), if_neg (not_not_intro (h.quoting.trans hout)), h.closed]
    split
    case isTrue => exact .error rfl
    case isFalse => exact h.unclosed.plainChar hu hv position position' c
  · rw [if_pos hout, if_pos (h.quoting ▸ hout)]
    exact .ok (h.quotedChar c)

/-- Both read a text, or both fail. -/
theorem run (h : Agree start u v s t) (hu : u.kind ≠ .path) (hv : v.kind ≠ .path)
    (position position' : Nat) :
    SameOutcome (Agree start u v) (s.run position text) (t.run position' text) := by
  induction text generalizing s t position position' with
  | nil => exact .ok h
  | cons c rest ih =>
      exact (h.step hu hv position position' c).bind fun _ _ hnext => ih hnext _ _

/-- Both have the tokens of a text but for the hole, or both fail. -/
theorem finish (h : Agree start u v s t) :
    SameOutcome (fun ts us => ∃ hole : Hole, hole.IsAt start ∧ ts = hole.fill u ∧ us = hole.fill v)
      s.finish t.finish := by
  have hflush := h.flush
  unfold Scanner.finish
  rw [h.quoting]
  split
  case isTrue => exact .error rfl
  case isFalse =>
      dsimp only
      rw [hflush.isSome_inner, hflush.outerOpen]
      split
      case isTrue => exact .error rfl
      case isFalse hinner =>
          split
          case isTrue => exact .error rfl
          case isFalse =>
              obtain ⟨hole, hat, hsame⟩ := hflush.tokens
              cases hsame with
              | pending hs => exact absurd (by rw [hs]; rfl) hinner
              | finished hfu hfv =>
                  have hfull : ∀ {tokens : Array Token} {x : Token},
                      tokens.toList = hole.fill x → ¬ tokens.isEmpty = true := by
                    intro tokens x hfill
                    rw [← Array.isEmpty_toList, hfill, List.isEmpty_iff]
                    exact Hole.fill_ne_nil
                  rw [if_neg (hfull hfu), if_neg (hfull hfv)]
                  exact .ok ⟨hole, hat, hfu, hfv⟩

end Agree

/-! ## What stands around a string -/

/-- A character between a word and the word behind it. -/
def Leads (c : Char) : Prop := Text.isBlank c = true ∨ c = '(' ∨ c = '['

/-- A character between a word and what stands behind it. -/
def Ends (c : Char) : Prop := Text.isBlank c = true ∨ c = ')' ∨ c = ']'

variable {position : Nat}

/-- Behind a character in front of a word, the scanner has no pending word and may go on. -/
theorem ready_of_step (h : s.step position c = .ok t) (hc : Leads c) (hout : t.quoting = .outside) :
    t.word = "" ∧ t.closed = false := by
  have hquote : c ≠ '"' := by
    rintro rfl
    exact absurd hc (by unfold Leads; decide)
  by_cases hquoting : s.quoting = .outside
  · rw [step, if_neg (not_not_intro hquoting)] at h
    split at h
    case isTrue => cases h
    case isFalse =>
        have hmoves := moves_of_plainChar (s := { s with closed := false }) hquoting h
        cases hmoves with
        | push hword =>
            obtain ⟨hblank, hspecial⟩ := hword hquoting
            rcases hc with hc | rfl | rfl
            · exact absurd (hblank.symm.trans hc) Bool.false_ne_true
            · exact absurd hspecial (by decide)
            · exact absurd hspecial (by decide)
        | blank => exact ⟨word_flush, closed_flush⟩
        | openBracket => exact ⟨word_flush, closed_flush⟩
        | closeBracket => exact absurd hc (by unfold Leads; decide)
        | openGroup => simp [Scanner.openGroup]
        | closeGroup => exact absurd hc (by unfold Leads; decide)
  · rw [step_of_quoted hquoting] at h
    cases h
    rw [quoting_quotedChar hquoting] at hout
    cases hq : s.quoting with
    | outside => exact absurd hq hquoting
    | inside =>
        rw [hq, Quoting.after, if_neg hquote] at hout
        split at hout <;> cases hout
    | escaped =>
        rw [hq] at hout
        cases hout

/-- Behind a text in front of a string, the scanner has no pending word and may go on. -/
theorem ready_of_run (h : run {} 0 text = .ok s) (hlast : ∀ c, text.getLast? = some c → Leads c)
    (hout : s.quoting = .outside) : s.word = "" ∧ s.closed = false := by
  rcases text.eq_nil_or_concat with rfl | ⟨front, c, htext⟩
  · cases h
    exact ⟨rfl, rfl⟩
  · rw [htext, List.concat_eq_append] at h hlast
    rw [run_append] at h
    obtain ⟨before, _, hrun⟩ := ok_of_bind h
    obtain ⟨next, hstep, hnext⟩ := ok_of_bind hrun
    cases hnext
    exact ready_of_step hstep (hlast c List.getLast?_concat) hout

/-- The pending word may be ended before a character that ends it. -/
theorem step_flush (hout : s.quoting = .outside) (hclosed : s.closed = false) (hc : Ends c) :
    s.flush.step position c = s.step position c := by
  have hflush : s.flush.flush = s.flush := flush_of_word word_flush
  rw [step_of_outside hout hclosed, step_of_outside (quoting_flush.trans hout)
    (closed_flush.trans hclosed)]
  rcases hc with hblank | rfl | rfl
  · have hquote : c ≠ '"' := by
      rintro rfl
      exact absurd hblank (by decide)
    rw [plainChar, plainChar, if_neg hquote, if_neg hquote, if_pos hblank, if_pos hblank, hflush]
  · show s.flush.closeGroup = s.closeGroup
    rw [closeGroup, closeGroup, hflush]
  · show s.flush.closeBracket position = s.closeBracket position
    rw [closeBracket, closeBracket, hflush, ← Option.not_isSome, ← Option.not_isSome,
      isSome_inner_flush]

/-- The pending word may be ended before what stands behind it. -/
theorem complete_flush (hout : s.quoting = .outside) (hclosed : s.closed = false)
    (hfirst : ∀ c, text.head? = some c → Ends c) :
    (s.flush.run position text >>= finish) = (s.run position text >>= finish) := by
  cases text with
  | nil =>
      show s.flush.finish = s.finish
      rw [finish, finish, quoting_flush, if_neg (not_not_intro hout), if_neg (not_not_intro hout),
        flush_of_word word_flush]
  | cons c rest => rw [run, run, step_flush hout hclosed (hfirst c rfl)]

/-- Two scanners agree once they have taken in the one token and the other. -/
theorem agree_emit (h : s.Sound) (u v : Token) (position position' : Nat) :
    Agree s u v (emit { s with quoteStart := position } u)
      (emit { s with quoteStart := position' } v) := by
  rcases Option.eq_none_or_eq_some s.inner with hinner | ⟨tokens, hinner⟩
  · rw [emit_of_none (s := { s with quoteStart := position }) hinner,
      emit_of_none (s := { s with quoteStart := position' }) hinner]
    exact ⟨rfl, rfl, rfl, rfl, rfl, .outside s.outer.toList [], ⟨hinner, rfl⟩,
      .finished (by simp [Hole.fill]) (by simp [Hole.fill]) rfl (by simp [hinner])⟩
  · rw [emit_of_some (s := { s with quoteStart := position }) hinner,
      emit_of_some (s := { s with quoteStart := position' }) hinner]
    obtain ⟨_, _, before, name, houter, _, _⟩ := h.inner tokens hinner
    exact ⟨rfl, rfl, rfl, rfl, rfl, .bracket before.toList name tokens.toList [] [],
      ⟨hinner, by simp [houter]⟩,
      .pending rfl rfl rfl (by simp [houter]) (by simp) (by simp)⟩

/-- A quoted text becomes its string. -/
theorem run_quote (hword : s.word = "") (hout : s.quoting = .outside) (hclosed : s.closed = false)
    (x : String) (position : Nat) : ∃ t start, s.run position (quote x).toList = .ok t ∧
      t.quoting = .outside ∧ t.closed = false ∧
      t.flush = emit { s with quoteStart := start } (.string x) := by
  have hspans : Spans s.quoting (quote x).toList .outside := by
    rw [hout]
    exact (isWord_quote x).spans
  obtain ⟨start, hrun⟩ := run_spans position hclosed hspans
  rw [hword, String.empty_append, String.ofList_toList] at hrun
  refine ⟨_, start, hrun, rfl, hclosed, ?_⟩
  have hnonempty : ¬ (quote x).isEmpty = true := fun hempty =>
    (isWord_quote x).nonempty (String.isEmpty_iff.mp hempty)
  rw [flush, if_neg hnonempty, Token.ofWord_quote, ← hword, ← hout]

end Scanner

/-! ## Whole filters -/

/-- A string can stand between two texts.  The first is empty or ends where a word may begin,
outside of quotes, and the second is empty or begins where a word ends. -/
structure Surrounds (pre post : String) : Prop where
  front : ∀ c, pre.toList.getLast? = some c → Scanner.Leads c
  outside : ∀ p, Scanner.run {} 0 pre.toList = .ok p → p.quoting = .outside
  back : ∀ c, post.toList.head? = some c → Scanner.Ends c

/-- Filters that differ in the content of a string have the same tokens but for that string, or fail
with the same error up to its position. -/
theorem tokenize_quote {pre post : String} (h : Surrounds pre post) (s t : String) :
    SameOutcome
      (fun ts us => ∃ p hole, Scanner.run {} 0 pre.toList = .ok p ∧ Hole.IsAt p hole ∧
        ts = hole.fill (.string s) ∧ us = hole.fill (.string t))
      (tokenize (pre ++ quote s ++ post)) (tokenize (pre ++ quote t ++ post)) := by
  rw [tokenize, tokenize]
  simp only [String.toList_append, Scanner.run_append, bind_assoc]
  cases hrun : Scanner.run {} 0 pre.toList with
  | error e => exact .error rfl
  | ok p =>
      have hout := h.outside p hrun
      obtain ⟨hword, hclosed⟩ := Scanner.ready_of_run hrun h.front hout
      have hsound := Scanner.Sound.start.run hrun
      obtain ⟨ps, start, hs, houts, hcloseds, hflushs⟩ := Scanner.run_quote hword hout hclosed s
        (0 + Text.byteSize pre.toList)
      obtain ⟨pt, start', ht, houtt, hclosedt, hflusht⟩ := Scanner.run_quote hword hout hclosed t
        (0 + Text.byteSize pre.toList)
      have hagree := Scanner.agree_emit hsound (.string s) (.string t) start start'
      rw [← hflushs, ← hflusht] at hagree
      rw [ok_bind, ok_bind, hs, ht, ok_bind, ok_bind,
        ← Scanner.complete_flush houts hcloseds h.back,
        ← Scanner.complete_flush houtt hclosedt h.back]
      have hkind : ∀ x, (Token.string x).kind ≠ .path := by
        intro x h
        cases h
      refine (hagree.run (hkind s) (hkind t) _ _).bind fun _ _ hend => hend.finish.mono ?_
      rintro ts us ⟨hole, hat, hts, hus⟩
      exact ⟨p, hole, rfl, hat, hts, hus⟩

/-- Between `emails[type eq ` and `] or title pr`, a string of quotes, a bracket and a backslash
does no more than the string `x`. -/
theorem tokenize_quote_bracket :
    Surrounds "emails[type eq " "] or title pr" ∧
      tokenize ("emails[type eq " ++ quote "a\" or x\\] pr" ++ "] or title pr") =
        .ok [.withFilter "emails" [.path "type", .ofOperator "eq" .eq, .string "a\" or x\\] pr"],
          .ofOperator "or" .or, .path "title", .ofOperator "pr" .pr] ∧
      SameOutcome
        (fun ts us => ∃ p hole, Scanner.run {} 0 "emails[type eq ".toList = .ok p ∧
          Hole.IsAt p hole ∧ ts = hole.fill (.string "a\" or x\\] pr") ∧
          us = hole.fill (.string "x"))
        (tokenize ("emails[type eq " ++ quote "a\" or x\\] pr" ++ "] or title pr"))
        (tokenize ("emails[type eq " ++ quote "x" ++ "] or title pr")) := by
  have hsurrounds : Surrounds "emails[type eq " "] or title pr" := by
    refine ⟨fun c hc => ?_, fun p hp => ?_, fun c hc => ?_⟩
    · cases hc
      exact .inl rfl
    · have hquoting : (Scanner.run {} 0 "emails[type eq ".toList).map Scanner.quoting =
          .ok .outside := rfl
      rw [hp] at hquoting
      exact Except.ok.inj hquoting
    · cases hc
      exact .inr (.inr rfl)
  exact ⟨hsurrounds, rfl, tokenize_quote hsurrounds "a\" or x\\] pr" "x"⟩

end Scim.Filter
