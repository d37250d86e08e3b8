import Scim.Proofs.Filter.Quoting
import Scim.Proofs.Path.Writing

/-!
# Where a filter is at fault

An error of scanning that reports a position should point at the character that is at fault
(`Blames`): the quote of a string that is never closed, a bracket that opens inside of a bracket or
not behind a path, the character that must not follow a bracket, a bracket without its counterpart.
A position counts the bytes in front of the character.

An error at a character is told from what the scanner knows of the text in front of it: whether
that ends between quotes (`quoting_of_run`), how many brackets it leaves open
(`openBrackets_of_run`), where its last quoted text starts (`quoteStart_of_run`) and what stands in
front of its open bracket (`exists_of_inner`).  So these errors point where they should.  So does a
string that is open at the end.

A bracket that is open at the end is the exception (`blames_of_tokenize`).  Its position is put
together from the start of the last quoted text and the number of tokens in front of the bracket, so
it can be that of another character, or of none (`not_blames_emails`).  It is that of the bracket or
of nothing at fault, since no other bracket of the text lacks its counterpart
(`blames_mismatchedBracket_iff`).
-/

namespace Scim.Filter

open Scanner (Quoting FreeOfBrackets)

/-! ## Faults -/

/-- The position that an error reports. -/
def Error.position? : Error → Option Nat
  | unterminatedString position | nestingTooDeep position | mismatchedBracket position
  | danglingFilter position | unexpectedAfterFilter _ position => some position
  | _ => none

/-- What follows the text stands outside of quotes. -/
def Outside (text : List Char) : Prop := text.foldl Quoting.after .outside = .outside

/-- The number of open brackets after a character. -/
def bracketsAfter (q : Quoting) (n : Nat) (c : Char) : Nat :=
  if q ≠ .outside then n
  else if c = '[' then n + 1
  else if c = ']' then n - 1
  else n

/-- The number of open brackets behind a text, where `n` are open before it. -/
def openBrackets (q : Quoting) (n : Nat) : List Char → Nat
  | [] => n
  | c :: rest => openBrackets (q.after c) (bracketsAfter q n c) rest

/-- Where the last quoted text starts, if the text itself starts at a position. -/
def quoteStart (q : Quoting) (position last : Nat) : List Char → Nat
  | [] => last
  | c :: rest =>
      quoteStart (q.after c) (position + c.utf8Size)
        (if q = .outside ∧ c = '"' then position else last) rest

/-- The finished tokens outside of brackets where the text ends. -/
def outerTokens (text : List Char) : Option (List Token) :=
  (Scanner.run {} 0 text).toOption.map fun s => s.flush.outer.toList

/-- A bracket that opens between the texts is never closed. -/
structure NeverClosed (front back : List Char) : Prop where
  outside : Outside front
  stays : ∀ middle, middle <+: back →
    openBrackets .outside 0 front < openBrackets .outside 0 (front ++ '[' :: middle)

/-- An error reports the position of a character that is at fault. -/
inductive Blames (text : List Char) : Error → Prop where
  | string {front back : List Char} (htext : text = front ++ '"' :: back) (hout : Outside front)
      (hopen : ∀ middle, middle <+: back → middle.foldl Quoting.after .inside ≠ .outside) :
      Blames text (.unterminatedString (Text.byteSize front))
  | nesting {front back : List Char} (htext : text = front ++ '[' :: back) (hout : Outside front)
      (hopen : openBrackets .outside 0 front ≠ 0) :
      Blames text (.nestingTooDeep (Text.byteSize front))
  | dangling {front back : List Char} {ts : List Token} (htext : text = front ++ '[' :: back)
      (hout : Outside front) (htokens : outerTokens front = some ts)
      (hpath : ∀ t, ts.getLast? = some t → t.kind ≠ .path) :
      Blames text (.danglingFilter (Text.byteSize front))
  | following {front back : List Char} {c : Char} (htext : text = front ++ ']' :: c :: back)
      (hout : Outside front) (hopen : openBrackets .outside 0 front ≠ 0)
      (hblank : Text.isBlank c = false) (hparen : c ≠ ')') :
      Blames text (.unexpectedAfterFilter c (Text.byteSize (front ++ [']'])))
  | unopened {front back : List Char} (htext : text = front ++ ']' :: back)
      (hout : Outside front) (hopen : openBrackets .outside 0 front = 0) :
      Blames text (.mismatchedBracket (Text.byteSize front))
  | unclosed {front back : List Char} (htext : text = front ++ '[' :: back)
      (hopen : NeverClosed front back) :
      Blames text (.mismatchedBracket (Text.byteSize front))

/-- The character with some bytes in front of it. -/
def charAt : Nat → List Char → Option Char
  | _, [] => none
  | n, c :: rest =>
      if n = 0 then some c
      else if n < c.utf8Size then none
      else charAt (n - c.utf8Size) rest

section

variable {front back text : List Char} {q : Quoting} {n position last : Nat} {c : Char}

theorem charAt_byteSize (front : List Char) (c : Char) (back : List Char) :
    charAt (Text.byteSize front) (front ++ c :: back) = some c := by
  induction front with
  | nil => exact if_pos rfl
  | cons d rest ih =>
      have hpos := d.utf8Size_pos
      rw [List.cons_append, charAt, Text.byteSize_cons, if_neg (by omega), if_neg (by omega),
        Nat.add_sub_cancel_left, ih]

/-- At the position of a mismatched bracket stands a bracket. -/
theorem Blames.bracketAt (h : Blames text (.mismatchedBracket position)) :
    charAt position text = some '[' ∨ charAt position text = some ']' := by
  cases h with
  | unopened htext => exact .inr (htext ▸ charAt_byteSize _ _ _)
  | unclosed htext => exact .inl (htext ▸ charAt_byteSize _ _ _)

theorem bracketsAfter_plain (h : q = .outside → c ≠ '[' ∧ c ≠ ']') : bracketsAfter q n c = n := by
  unfold bracketsAfter
  split
  case isTrue => rfl
  case isFalse hout =>
      obtain ⟨hopen, hclose⟩ := h (Decidable.not_not.mp hout)
      rw [if_neg hopen, if_neg hclose]

theorem openBrackets_append : openBrackets q n (front ++ back) =
    openBrackets (front.foldl Quoting.after q) (openBrackets q n front) back := by
  induction front generalizing q n with
  | nil => rfl
  | cons c rest ih => exact ih

theorem openBrackets_of_free (h : FreeOfBrackets q text) : openBrackets q n text = n := by
  induction text generalizing q n with
  | nil => rfl
  | cons c rest ih => rw [openBrackets, bracketsAfter_plain h.1, ih h.2]

theorem freeOfBrackets_append : FreeOfBrackets q (front ++ back) ↔
    FreeOfBrackets q front ∧ FreeOfBrackets (front.foldl Quoting.after q) back := by
  induction front generalizing q with
  | nil => exact (true_and _ ▸ Iff.rfl)
  | cons c rest ih => exact (and_congr_right fun _ => ih).trans and_assoc.symm

/-- A bracket is not closed by what has no bracket. -/
theorem neverClosed_of_free (hout : Outside front) (hfree : FreeOfBrackets .outside back) :
    NeverClosed front back := by
  refine ⟨hout, fun middle hmiddle => ?_⟩
  obtain ⟨rest, rfl⟩ := hmiddle
  have hopen : openBrackets .outside 0 (front ++ '[' :: middle) =
      openBrackets .outside (openBrackets .outside 0 front + 1) middle := by
    rw [openBrackets_append, hout]
    rfl
  rw [hopen, openBrackets_of_free (freeOfBrackets_append.mp hfree).1]
  exact Nat.lt_succ_self _

theorem quoteStart_append : quoteStart q position last (front ++ back) =
    quoteStart (front.foldl Quoting.after q) (position + Text.byteSize front)
      (quoteStart q position last front) back := by
  induction front generalizing q position last with
  | nil => rfl
  | cons c rest ih =>
      rw [List.cons_append, quoteStart, ih, Text.byteSize_cons, Nat.add_assoc]
      rfl

/-- A text that ends between quotes has a quote that opens them, and they start there. -/
theorem exists_quote_of_open (h : ¬ Outside text) :
    ∃ front back, text = front ++ '"' :: back ∧ Outside front ∧
      (∀ middle, middle <+: back → middle.foldl Quoting.after .inside ≠ .outside) ∧
      quoteStart .outside 0 0 text = Text.byteSize front := by
  induction text using List.reverseRecOn with
  | nil => exact absurd rfl h
  | append_singleton text c ih =>
      have hlast : (text.foldl Quoting.after .outside).after c ≠ .outside := by
        rwa [Outside, List.foldl_append] at h
      by_cases hout : Outside text
      · have hquote : c = '"' := by
          rw [hout] at hlast
          exact Decidable.not_not.mp fun hne => hlast (if_neg hne)
        subst hquote
        refine ⟨text, [], rfl, hout, fun middle hmiddle => ?_, ?_⟩
        · rw [List.prefix_nil.mp hmiddle]
          exact nofun
        · rw [quoteStart_append, hout, Nat.zero_add]
          rfl
      · obtain ⟨front, back, rfl, hfront, hopen, hstart⟩ := ih hout
        have hinside : (front ++ '"' :: back).foldl Quoting.after .outside =
            back.foldl Quoting.after .inside := by
          rw [List.foldl_append, hfront]
          rfl
        refine ⟨front, back ++ [c], by simp, hfront, fun middle hmiddle => ?_, ?_⟩
        · rcases List.prefix_concat_iff.mp hmiddle with rfl | hmiddle
          · rw [hinside] at hlast
            rwa [List.foldl_append]
          · exact hopen middle hmiddle
        · rw [quoteStart_append, hstart, quoteStart, if_neg fun hc => hout hc.1]
          rfl

end

/-! ## What the scanner knows of the text -/

namespace Scanner

variable {s s' : Scanner} {t : Token} {position n : Nat} {c : Char} {text front : List Char}
  {e : Error}

/-- The number of brackets in which the scanner stands. -/
def nesting (s : Scanner) : Nat := if s.inner.isSome then 1 else 0

theorem nesting_eq_zero_iff : s.nesting = 0 ↔ s.inner = none := by
  unfold nesting
  cases s.inner <;> simp

theorem nesting_of_isSome (h : s'.inner.isSome = s.inner.isSome) : s'.nesting = s.nesting := by
  rw [nesting, nesting, h]

@[simp] theorem isSome_inner_setOpenCount (n : Nat) :
    (s.setOpenCount n).inner.isSome = s.inner.isSome := by
  unfold setOpenCount
  split <;> rfl

theorem outer_emit_of_inner (h : s.inner.isSome = true) : (s.emit t).outer = s.outer := by
  obtain ⟨tokens, htokens⟩ := Option.isSome_iff_exists.mp h
  rw [emit_of_some htokens]

theorem outer_flush_of_inner (h : s.inner.isSome = true) : s.flush.outer = s.outer := by
  unfold flush
  split
  case isTrue => rfl
  case isFalse => exact outer_emit_of_inner (s := { s with word := "" }) h

theorem outer_flush_mark (s : Scanner) (closed : Bool) :
    ({ s with closed := closed } : Scanner).flush.outer = s.flush.outer := by
  unfold flush emit
  dsimp only
  split
  case isTrue => rfl
  case isFalse => split <;> rfl

@[simp] theorem outer_setOpenCount (n : Nat) : (s.setOpenCount n).outer = s.outer := by
  unfold setOpenCount
  split <;> rfl

@[simp] theorem quoteStart_emit : (s.emit t).quoteStart = s.quoteStart := by
  unfold emit
  split <;> rfl

@[simp] theorem quoteStart_flush : s.flush.quoteStart = s.quoteStart := by
  unfold flush
  split
  case isTrue => rfl
  case isFalse => rw [quoteStart_emit]

@[simp] theorem quoteStart_setOpenCount (n : Nat) :
    (s.setOpenCount n).quoteStart = s.quoteStart := by
  unfold setOpenCount
  split <;> rfl

theorem run_concat (h : s.run position (text ++ [c]) = .ok s') :
    ∃ between, s.run position text = .ok between ∧
      between.step (position + Text.byteSize text) c = .ok s' := by
  rw [run_append] at h
  obtain ⟨between, hrun, hlast⟩ := ok_of_bind h
  obtain ⟨next, hstep, hnext⟩ := ok_of_bind hlast
  cases hnext
  exact ⟨between, hrun, hstep⟩

/-- A run that fails does so at a character. -/
theorem exists_of_run_error (h : s.run position text = .error e) :
    ∃ front c back between, text = front ++ c :: back ∧ s.run position front = .ok between ∧
      between.step (position + Text.byteSize front) c = .error e := by
  induction text generalizing s position with
  | nil => cases h
  | cons c rest ih =>
      rw [run] at h
      cases hstep : s.step position c with
      | error e' =>
          rw [hstep] at h
          cases h
          exact ⟨[], c, rest, s, rfl, rfl, hstep⟩
      | ok next =>
          rw [hstep] at h
          obtain ⟨front, d, back, between, rfl, hrun, hfail⟩ := ih h
          refine ⟨c :: front, d, back, between, rfl, ?_, ?_⟩
          · rw [run, hstep]
            exact hrun
          · rw [Text.byteSize_cons, ← Nat.add_assoc]
            exact hfail

theorem bracketsAfter_of_moves (h : Moves s c s') :
    s'.nesting = bracketsAfter s.quoting s.nesting c := by
  cases h with
  | push hc =>
      refine (bracketsAfter_plain fun hout => ?_).symm
      have hspecial := (hc hout).2
      exact ⟨fun heq => hspecial (by simp [heq]), fun heq => hspecial (by simp [heq])⟩
  | blank hout hblank =>
      rw [nesting_of_isSome isSome_inner_flush, bracketsAfter_plain fun _ => ?_]
      constructor <;> rintro rfl <;> exact absurd hblank (by decide)
  | openBracket hout hinner =>
      have hnone : s.nesting = 0 := by
        rw [← nesting_of_isSome isSome_inner_flush, nesting_eq_zero_iff]
        exact hinner
      rw [hnone, hout]
      rfl
  | closeBracket hout hinner =>
      have hsome : s.nesting = 1 := by
        rw [← nesting_of_isSome isSome_inner_flush, nesting, hinner]
        rfl
      rw [hsome, hout]
      rfl
  | openGroup =>
      have hsame : s.openGroup.inner.isSome = s.inner.isSome := by
        simp [openGroup, isSome_inner_emit]
      rw [nesting_of_isSome hsame, bracketsAfter_plain fun _ => by decide]
  | closeGroup =>
      have hsame : ((s.flush.setOpenCount (s.flush.openCount - 1)).emit
          (.parenthesis false)).inner.isSome = s.inner.isSome := by
        simp [isSome_inner_emit]
      rw [nesting_of_isSome hsame, bracketsAfter_plain fun _ => by decide]

/-- The scanner stands in as many brackets as its characters leave open. -/
theorem openBrackets_of_run (h : s.run position text = .ok s') :
    s'.nesting = openBrackets s.quoting s.nesting text := by
  induction text generalizing s position with
  | nil =>
      cases h
      rfl
  | cons c rest ih =>
      obtain ⟨next, hstep, hrun⟩ := ok_of_bind h
      obtain ⟨_, hmoves⟩ := moves_of_step hstep
      rw [ih hrun, hmoves.quoting, bracketsAfter_of_moves hmoves]
      rfl

theorem quoteStart_of_step (h : s.step position c = .ok s') :
    s'.quoteStart = if s.quoting = .outside ∧ c = '"' then position else s.quoteStart := by
  by_cases hout : s.quoting = .outside
  · grind [step, plainChar, openBracket, closeBracket, openGroup, closeGroup, quoteStart_emit,
      quoteStart_flush, quoteStart_setOpenCount]
  · rw [step_of_quoted hout] at h
    cases h
    exact (if_neg fun hc => hout hc.1).symm

/-- The scanner remembers where the last quoted text starts. -/
theorem quoteStart_of_run (h : s.run position text = .ok s') :
    s'.quoteStart = Filter.quoteStart s.quoting position s.quoteStart text := by
  induction text generalizing s position with
  | nil =>
      cases h
      rfl
  | cons c rest ih =>
      obtain ⟨next, hstep, hrun⟩ := ok_of_bind h
      obtain ⟨_, hmoves⟩ := moves_of_step hstep
      rw [ih hrun, hmoves.quoting, quoteStart_of_step hstep]
      rfl

/-- What a character has done that leaves a bracket open: it has opened the bracket, or it is no
bracket and leaves the tokens in front of the bracket as they are. -/
theorem inner_of_moves (h : Moves s c s') (hinner : s'.inner.isSome = true) :
    (s.quoting = .outside ∧ c = '[' ∧ s.inner = none ∧ s'.outer = s.flush.outer) ∨
      (s.inner.isSome = true ∧ s'.outer = s.outer ∧
        (s.quoting = .outside → c ≠ '[' ∧ c ≠ ']')) := by
  cases h with
  | push hc =>
      refine .inr ⟨hinner, rfl, fun hout => ?_⟩
      have hspecial := (hc hout).2
      exact ⟨fun heq => hspecial (by simp [heq]), fun heq => hspecial (by simp [heq])⟩
  | blank hout hblank =>
      rw [isSome_inner_flush] at hinner
      refine .inr ⟨hinner, outer_flush_of_inner hinner, fun _ => ?_⟩
      constructor <;> rintro rfl <;> exact absurd hblank (by decide)
  | openBracket hout hnone =>
      have hnone' : s.inner = none := by
        rw [← Option.not_isSome_iff_eq_none, ← isSome_inner_flush, hnone]
        exact Bool.false_ne_true
      exact .inl ⟨hout, rfl, hnone', rfl⟩
  | closeBracket => cases hinner
  | openGroup =>
      have hinner' : s.inner.isSome = true := by
        simpa [openGroup, isSome_inner_emit] using hinner
      refine .inr ⟨hinner', ?_, fun _ => by decide⟩
      rw [openGroup, outer_emit_of_inner (by simpa using hinner'), outer_setOpenCount,
        outer_flush_of_inner hinner']
  | closeGroup =>
      have hinner' : s.inner.isSome = true := by simpa [isSome_inner_emit] using hinner
      refine .inr ⟨hinner', ?_, fun _ => by decide⟩
      rw [outer_emit_of_inner (by simpa using hinner'), outer_setOpenCount,
        outer_flush_of_inner hinner']

theorem outside_of_run (h : run {} 0 text = .ok s) : Outside text ↔ s.quoting = .outside := by
  rw [Outside, quoting_of_run h]

/-- In front of an open bracket stand the finished tokens, and no bracket stands behind it. -/
theorem exists_of_inner (h : run {} 0 text = .ok s) (hinner : s.inner.isSome = true) :
    ∃ front back, text = front ++ '[' :: back ∧ Outside front ∧
      FreeOfBrackets .outside back ∧ outerTokens front = some s.outer.toList := by
  induction text using List.reverseRecOn generalizing s with
  | nil =>
      cases h
      cases hinner
  | append_singleton text c ih =>
      obtain ⟨between, hrun, hstep⟩ := run_concat h
      obtain ⟨_, hmoves⟩ := moves_of_step hstep
      rcases inner_of_moves hmoves hinner with ⟨hout, rfl, -, houter⟩ | ⟨hopen, houter, hplain⟩
      · refine ⟨text, [], rfl, (outside_of_run hrun).mpr hout, trivial, ?_⟩
        rw [outerTokens, hrun, houter, outer_flush_mark]
        rfl
      · obtain ⟨front, back, rfl, hfront, hfree, htokens⟩ := ih hrun hopen
        have hquoting : between.quoting = back.foldl Quoting.after .outside := by
          rw [quoting_of_run hrun, List.foldl_append, hfront]
          rfl
        refine ⟨front, back ++ [c], by simp, hfront, ?_, houter ▸ htokens⟩
        exact freeOfBrackets_append.mpr ⟨hfree, fun hout => hplain (hquoting.trans hout), trivial⟩

/-- The mark of a closed bracket is set by the character that closes one. -/
theorem closed_of_moves (h : Moves s c s') (hmark : s.closed = false) (hclosed : s'.closed = true) :
    c = ']' ∧ s.quoting = .outside ∧ s.nesting ≠ 0 := by
  have habsurd : ∀ {b : Bool}, b = s.closed → b ≠ true := fun hb htrue =>
    Bool.false_ne_true (hmark.symm.trans (hb.symm.trans htrue))
  cases h with
  | closeBracket hout hinner =>
      refine ⟨rfl, hout, ?_⟩
      rw [← nesting_of_isSome isSome_inner_flush, nesting, hinner]
      exact Nat.one_ne_zero
  | push => exact absurd hclosed (habsurd rfl)
  | blank => exact absurd hclosed (habsurd closed_flush)
  | openBracket => exact absurd hclosed (habsurd closed_flush)
  | openGroup => exact absurd hclosed (habsurd (by simp [openGroup]))
  | closeGroup => exact absurd hclosed (habsurd (by simp))

/-- A bracket that has just been closed is the last character. -/
theorem exists_of_closed (h : run {} 0 text = .ok s) (hclosed : s.closed = true) :
    ∃ front, text = front ++ [']'] ∧ Outside front ∧ openBrackets .outside 0 front ≠ 0 := by
  induction text using List.reverseRecOn generalizing s with
  | nil =>
      cases h
      cases hclosed
  | append_singleton text c ih =>
      obtain ⟨between, hrun, hstep⟩ := run_concat h
      by_cases hout : between.quoting = .outside
      · rw [step, if_neg (not_not_intro hout)] at hstep
        split at hstep
        case isTrue => cases hstep
        case isFalse =>
            have hmoves := moves_of_plainChar (s := { between with closed := false }) hout hstep
            obtain ⟨rfl, _, hnesting⟩ := closed_of_moves hmoves rfl hclosed
            refine ⟨text, rfl, (outside_of_run hrun).mpr hout, ?_⟩
            have hopen := openBrackets_of_run hrun
            exact hopen ▸ hnesting
      · rw [step_of_quoted hout] at hstep
        cases hstep
        obtain ⟨front, rfl, hfront, _⟩ := ih hrun hclosed
        have hend : Outside (front ++ [']']) := by
          rw [Outside, List.foldl_append, hfront]
          rfl
        exact absurd ((outside_of_run hrun).mp hend) hout

/-! ## What is refused -/

/-- Why a scanner refuses a character at a position. -/
inductive Refuses (s : Scanner) (position : Nat) : Char → Error → Prop where
  | following {c : Char} (hclosed : s.closed = true) (hblank : Text.isBlank c = false)
      (hparen : c ≠ ')') : Refuses s position c (.unexpectedAfterFilter c position)
  | nesting (hopen : s.nesting ≠ 0) : Refuses s position '[' (.nestingTooDeep position)
  | dangling (hpath : ∀ t, s.flush.outer.back? = some t → t.kind ≠ .path) :
      Refuses s position '[' (.danglingFilter position)
  | unopened (hopen : s.nesting = 0) : Refuses s position ']' (.mismatchedBracket position)

theorem refuses_of_openBracket (h : s.openBracket position = .error e) :
    Refuses s position '[' e := by
  unfold openBracket at h
  dsimp only at h
  split at h
  case isTrue hopen =>
      cases h
      refine .nesting ?_
      rw [← nesting_of_isSome isSome_inner_flush, nesting, if_pos hopen]
      exact Nat.one_ne_zero
  case isFalse =>
      split at h
      case h_1 path hlast =>
          split at h
          case isTrue => cases h
          case isFalse hkind =>
              cases h
              refine .dangling fun t ht => ?_
              rw [Option.some.inj (ht.symm.trans hlast)]
              exact hkind
      case h_2 hlast =>
          cases h
          exact .dangling fun t ht => nomatch hlast.symm.trans ht

/-- A closing bracket that reports a position closes nothing: there is a path in front of an open
bracket. -/
theorem refuses_of_closeBracket (hsound : s.Sound) (h : s.closeBracket position = .error e)
    (hp : e.position? = some n) : Refuses s position ']' e := by
  unfold closeBracket at h
  split at h
  case isTrue hnone =>
      cases h
      exact .unopened (nesting_eq_zero_iff.mpr (Option.isNone_iff_eq_none.mp hnone))
  case isFalse hsome =>
      dsimp only at h
      split at h
      case isTrue =>
          cases h
          cases hp
      case isFalse =>
          split at h
          case isTrue =>
              cases h
              cases hp
          case isFalse =>
              split at h
              case h_1 => cases h
              case h_2 hlast =>
                  have hinner : s.inner.isSome = true := by
                    rwa [← Option.not_isSome, Bool.not_eq_true', Bool.not_eq_false] at hsome
                  obtain ⟨tokens, htokens⟩ := Option.isSome_iff_exists.mp hinner
                  obtain ⟨_, _, before, name, houter, _⟩ := hsound.inner tokens htokens
                  rw [outer_flush_of_inner hinner, houter, Array.back?_push] at hlast
                  cases hlast

theorem refuses_of_plainChar (hsound : s.Sound) (h : s.plainChar position c = .error e)
    (hp : e.position? = some n) : Refuses s position c e := by
  unfold plainChar at h
  split at h
  · cases h
  split at h
  · cases h
  split at h
  case isTrue hc => exact hc ▸ refuses_of_openBracket h
  case isFalse =>
      split at h
      case isTrue hc => exact hc ▸ refuses_of_closeBracket hsound h hp
      case isFalse =>
          split at h
          · cases h
          split at h
          case isTrue =>
              unfold closeGroup at h
              dsimp only at h
              split at h
              case isTrue =>
                  cases h
                  cases hp
              case isFalse => cases h
          case isFalse => cases h

/-- A character that is refused with a position stands outside of quotes. -/
theorem refuses_of_step (hsound : s.Sound) (h : s.step position c = .error e)
    (hp : e.position? = some n) : s.quoting = .outside ∧ Refuses s position c e := by
  by_cases hout : s.quoting = .outside
  · refine ⟨hout, ?_⟩
    rw [step, if_neg (not_not_intro hout)] at h
    split at h
    case isTrue hclosed =>
        cases h
        simp only [Bool.and_eq_true, Bool.not_eq_true', Bool.or_eq_false_iff] at hclosed
        exact .following hclosed.1 hclosed.2.1 (by simpa using hclosed.2.2)
    case isFalse =>
        have hmarked : Sound { s with closed := false } :=
          ⟨hsound.word, hsound.outer, hsound.outerOpen, hsound.inner⟩
        have hrefuses := refuses_of_plainChar hmarked h hp
        cases hrefuses with
        | following hclosed => cases hclosed
        | nesting hopen => exact .nesting hopen
        | dangling hpath =>
            rw [outer_flush_mark] at hpath
            exact .dangling hpath
        | unopened hopen => exact .unopened hopen
  · rw [step_of_quoted hout] at h
    cases h

/-- What is refused behind a text that has been scanned is at fault. -/
theorem Refuses.blames (hrun : run {} 0 front = .ok s) (hout : s.quoting = .outside)
    (h : Refuses s (Text.byteSize front) c e) (back : List Char) :
    Blames (front ++ c :: back) e := by
  have hfront : Outside front := (outside_of_run hrun).mpr hout
  have hopen : s.nesting = openBrackets .outside 0 front := openBrackets_of_run hrun
  cases h with
  | following hclosed hblank hparen =>
      obtain ⟨before, rfl, hbefore, hbracket⟩ := exists_of_closed hrun hclosed
      have htext : before ++ [']'] ++ c :: back = before ++ ']' :: c :: back := by simp
      exact .following htext hbefore hbracket hblank hparen
  | nesting hnesting => exact .nesting rfl hfront (hopen ▸ hnesting)
  | dangling hpath =>
      have htokens : outerTokens front = some s.flush.outer.toList := by
        rw [outerTokens, hrun]
        rfl
      refine .dangling rfl hfront htokens fun t ht => hpath t ?_
      rwa [← Array.getLast?_toList]
  | unopened hnesting => exact .unopened rfl hfront (hopen ▸ hnesting)

/-- At the end of a text, a string or a bracket that is still open is reported with a position. -/
theorem finish_error_cases (h : s.finish = .error e) (hp : e.position? = some n) :
    (s.quoting ≠ .outside ∧ e = .unterminatedString s.quoteStart) ∨
      (s.inner.isSome = true ∧ e = .mismatchedBracket (max s.quoteStart s.outer.size)) := by
  unfold finish at h
  split at h
  case isTrue hquoting =>
      cases h
      exact .inl ⟨hquoting, rfl⟩
  case isFalse =>
      dsimp only at h
      split at h
      case isTrue hinner =>
          rw [isSome_inner_flush] at hinner
          rw [quoteStart_flush, outer_flush_of_inner hinner] at h
          cases h
          exact .inr ⟨hinner, rfl⟩
      case isFalse =>
          split at h
          case isTrue =>
              cases h
              cases hp
          case isFalse =>
              split at h
              case isTrue =>
                  cases h
                  cases hp
              case isFalse => cases h

theorem nesting_of_open (h : Moves s '[' s') (hout : s.quoting = .outside) : s.nesting = 0 := by
  cases h with
  | push hc => exact absurd (hc hout).2 (by decide)
  | blank _ hblank => exact absurd hblank (by decide)
  | openBracket _ hinner =>
      rw [← nesting_of_isSome isSome_inner_flush]
      exact nesting_eq_zero_iff.mpr hinner

theorem nesting_of_close (h : Moves s ']' s') (hout : s.quoting = .outside) : s.nesting ≠ 0 := by
  cases h with
  | push hc => exact absurd (hc hout).2 (by decide)
  | blank _ hblank => exact absurd hblank (by decide)
  | closeBracket _ hinner =>
      rw [← nesting_of_isSome isSome_inner_flush, nesting, hinner]
      exact Nat.one_ne_zero

/-- A character of a text that has been scanned has been taken as the text in front of it says. -/
theorem exists_moves_of_run {back : List Char} (h : run {} 0 (front ++ c :: back) = .ok s)
    (hfront : Outside front) :
    ∃ t t', Moves t c t' ∧ t.quoting = .outside ∧ t.nesting = openBrackets .outside 0 front := by
  rw [run_append] at h
  obtain ⟨t, hrun, hrest⟩ := ok_of_bind h
  obtain ⟨t', hstep, _⟩ := ok_of_bind hrest
  obtain ⟨closed, hmoves⟩ := moves_of_step hstep
  exact ⟨_, t', hmoves, (outside_of_run hrun).mp hfront, openBrackets_of_run hrun⟩

/-- Where a text has been scanned and leaves a bracket open, no other bracket is mismatched. -/
theorem blames_mismatchedBracket_iff {back : List Char}
    (hrun : run {} 0 (front ++ '[' :: back) = .ok s) (hfront : Outside front)
    (hfree : FreeOfBrackets .outside back) :
    Blames (front ++ '[' :: back) (.mismatchedBracket n) ↔ n = Text.byteSize front := by
  obtain ⟨_, _, hmoves, hout, hnesting⟩ := exists_moves_of_run hrun hfront
  have hzero : openBrackets .outside 0 front = 0 := hnesting ▸ nesting_of_open hmoves hout
  constructor
  · intro h
    generalize htext : front ++ '[' :: back = text at h hrun
    cases h with
    | unopened htext' hfront' hopen' =>
        -- the scanner would have stopped there
        subst htext'
        obtain ⟨_, _, hmoves', hout', hnesting'⟩ := exists_moves_of_run hrun hfront'
        exact absurd (hnesting'.trans hopen') (nesting_of_close hmoves' hout')
    | @unclosed front' back' htext' hopen' =>
        rcases List.append_eq_append_iff.mp (htext.trans htext') with
          ⟨between, rfl, hback⟩ | ⟨between, rfl, hback⟩
        · cases between with
          | nil => rw [List.append_nil]
          | cons d middle =>
              -- this bracket stands behind the one that is left open
              obtain ⟨rfl, rfl⟩ := List.cons.inj hback
              have hmiddle : middle.foldl Quoting.after .outside = .outside := by
                have hout' := hopen'.outside
                rwa [Outside, List.foldl_append, hfront] at hout'
              exact absurd rfl ((freeOfBrackets_append.mp hfree).2.1 hmiddle).1
        · cases between with
          | nil => rw [List.append_nil]
          | cons d middle =>
              -- this bracket stands in front of it and would be open there
              obtain ⟨rfl, rfl⟩ := List.cons.inj hback
              have hlt := hopen'.stays middle (List.prefix_append _ _)
              rw [hzero] at hlt
              exact absurd hlt (Nat.not_lt_zero _)
  · rintro rfl
    exact .unclosed rfl (neverClosed_of_free hfront hfree)

end Scanner

/-! ## Whole filters -/

variable {text : String} {e : Error} {p : Nat}

/-- An error with a position points at what is at fault, unless a bracket is open at the end.  Then
the position is where the last quoted text starts, or the number of tokens in front of the bracket
if that is greater.  It points at what is at fault only where it happens to be that of the
bracket. -/
theorem blames_of_tokenize (h : tokenize text = .error e) (hp : e.position? = some p) :
    Blames text.toList e ∨
      ∃ front back ts, text.toList = front ++ '[' :: back ∧ NeverClosed front back ∧
        outerTokens front = some ts ∧ e = .mismatchedBracket p ∧
        p = max (quoteStart .outside 0 0 text.toList) ts.length ∧
        (Blames text.toList e ↔ p = Text.byteSize front) := by
  unfold tokenize at h
  cases hrun : Scanner.run {} 0 text.toList with
  | error e' =>
      rw [hrun] at h
      cases h
      obtain ⟨front, c, back, s, htext, hfront, hstep⟩ := Scanner.exists_of_run_error hrun
      rw [Nat.zero_add] at hstep
      obtain ⟨hout, hrefuses⟩ :=
        Scanner.refuses_of_step (Scanner.Sound.start.run hfront) hstep hp
      exact .inl (htext ▸ hrefuses.blames hfront hout back)
  | ok s =>
      rw [hrun, ok_bind] at h
      have hstart : s.quoteStart = quoteStart .outside 0 0 text.toList :=
        Scanner.quoteStart_of_run hrun
      rcases Scanner.finish_error_cases h hp with ⟨hquoting, rfl⟩ | ⟨hinner, rfl⟩
      · have hopen : ¬ Outside text.toList := fun hout =>
          hquoting ((Scanner.outside_of_run hrun).mp hout)
        obtain ⟨front, back, htext, hfront, hback, hquote⟩ := exists_quote_of_open hopen
        rw [hstart, hquote]
        exact .inl (.string htext hfront hback)
      · cases hp
        obtain ⟨front, back, htext, hfront, hfree, htokens⟩ :=
          Scanner.exists_of_inner hrun hinner
        refine .inr ⟨front, back, _, htext, neverClosed_of_free hfront hfree, htokens, rfl, ?_, ?_⟩
        · rw [hstart, Array.length_toList]
        · rw [htext] at hrun ⊢
          exact Scanner.blames_mismatchedBracket_iff hrun hfront hfree

/-- Behind characters of two bytes, what must not follow a bracket is found where it stands. -/
theorem blames_of_tokenize_accent :
    tokenize "é[né pr]é" = .error (.unexpectedAfterFilter 'é' 10) ∧
      Error.position? (.unexpectedAfterFilter 'é' 10) = some 10 ∧
      Blames "é[né pr]é".toList (.unexpectedAfterFilter 'é' 10) := by
  have htokenize : tokenize "é[né pr]é" = .error (.unexpectedAfterFilter 'é' 10) := rfl
  refine ⟨htokenize, rfl, ?_⟩
  rcases blames_of_tokenize htokenize rfl with h | ⟨_, _, _, _, _, _, he, _⟩
  · exact h
  · cases he

/-- What is reported for a bracket that is open at the end is the quote of a string behind it. -/
theorem not_blames_emails :
    tokenize "emails[type eq \"work\"" = .error (.mismatchedBracket 15) ∧
      ¬ Blames "emails[type eq \"work\"".toList (.mismatchedBracket 15) := by
  refine ⟨rfl, fun h => ?_⟩
  have hquote : charAt 15 "emails[type eq \"work\"".toList = some '"' := rfl
  rcases h.bracketAt with hopen | hclose
  · cases hquote.symm.trans hopen
  · cases hquote.symm.trans hclose

end Scim.Filter
