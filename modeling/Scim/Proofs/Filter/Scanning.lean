import Scim.Filter.Scanner
import Scim.Proofs.Outcome

/-!
# Scanning a filter in brackets

A filter scans to the same tokens on its own and in brackets behind a path.

While no bracket has been met (`Scanner.HasBracket`), a scanner outside of brackets and one inside
of them go side by side: the finished tokens of the one are the bracketed tokens of the other
(`Scanner.Mirrors`).  A bracket that has been met leaves a trace in the tokens, so a text whose
tokens have no trace has been scanned without brackets from its start (`Scanner.run_mirrors`).
-/

namespace Scim.Filter

/-- A word that is taken for a path is a plain path. -/
theorem Token.ofWord_of_path {word : String} (h : (Token.ofWord word).kind = .path) :
    Token.ofWord word = .path word := by
  unfold ofWord at h ⊢
  split
  case h_1 op hop =>
      simp only [hop, ofOperator] at h
      split at h <;> cases h
  case h_2 hop =>
      simp only [hop] at h
      split
      case isTrue hparen =>
          rw [if_pos hparen] at h
          cases h
      case isFalse hparen =>
          rw [if_neg hparen] at h
          split at h
          · cases h
          · rfl

namespace Scanner

variable {s t : Scanner} {position : Nat} {c : Char} {token : Token}

/-! ## Quoting -/

/-- The quoting after a character. -/
def Quoting.after (q : Quoting) (c : Char) : Quoting :=
  match q with
  | .outside => if c = '"' then .inside else .outside
  | .inside => if c = '\\' then .escaped else if c = '"' then .outside else .inside
  | .escaped => .inside

@[simp] theorem quoting_emit : (s.emit token).quoting = s.quoting := by
  unfold emit
  split <;> rfl

@[simp] theorem word_emit : (s.emit token).word = s.word := by
  unfold emit
  split <;> rfl

@[simp] theorem closed_emit : (s.emit token).closed = s.closed := by
  unfold emit
  split <;> rfl

@[simp] theorem quoting_flush : s.flush.quoting = s.quoting := by
  unfold flush
  split
  case isTrue => rfl
  case isFalse => rw [quoting_emit]

@[simp] theorem word_flush : s.flush.word = "" := by
  unfold flush
  split
  case isTrue h => exact String.isEmpty_iff.mp h
  case isFalse => rw [word_emit]

theorem flush_of_word (h : s.word = "") : s.flush = s := by
  rw [flush, if_pos (String.isEmpty_iff.mpr h)]

@[simp] theorem closed_flush : s.flush.closed = s.closed := by
  unfold flush
  split
  case isTrue => rfl
  case isFalse => rw [closed_emit]

theorem inner_flush (h : s.inner = none) : s.flush.inner = none := by
  unfold flush
  split
  case isTrue => exact h
  case isFalse => rw [emit, h]

@[simp] theorem quoting_setOpenCount (n : Nat) : (s.setOpenCount n).quoting = s.quoting := by
  unfold setOpenCount
  split <;> rfl

@[simp] theorem word_setOpenCount (n : Nat) : (s.setOpenCount n).word = s.word := by
  unfold setOpenCount
  split <;> rfl

@[simp] theorem closed_setOpenCount (n : Nat) : (s.setOpenCount n).closed = s.closed := by
  unfold setOpenCount
  split <;> rfl

/-! ## Traces of brackets -/

/-- Whether the scanner is in a bracket or has been in one. -/
def HasBracket (s : Scanner) : Prop :=
  s.inner.isSome = true ∨ ∃ t ∈ s.outer.toList, t.kind = .nestedPath

theorem HasBracket.emit (h : s.HasBracket) : (s.emit token).HasBracket := by
  unfold Scanner.emit
  split
  case h_1 => exact Or.inl rfl
  case h_2 hinner =>
      rcases h with h | ⟨t, ht, hkind⟩
      · rw [hinner] at h
        cases h
      · refine Or.inr ⟨t, ?_, hkind⟩
        rw [Array.toList_push]
        exact List.mem_append_left _ ht

theorem HasBracket.flush (h : s.HasBracket) : s.flush.HasBracket := by
  unfold Scanner.flush
  split
  case isTrue => exact h
  case isFalse => exact HasBracket.emit (s := { s with word := "" }) h

theorem HasBracket.setOpenCount (h : s.HasBracket) (n : Nat) : (s.setOpenCount n).HasBracket := by
  unfold Scanner.setOpenCount
  split <;> exact h

theorem hasBracket_of_closeBracket (h : s.closeBracket position = .ok t) : t.HasBracket := by
  unfold closeBracket at h
  split at h
  · cases h
  dsimp only at h
  split at h
  · cases h
  split at h
  · cases h
  split at h
  case h_1 path _ =>
      cases h
      refine Or.inr ⟨.withFilter path.text (s.flush.inner.getD #[]).toList, ?_, rfl⟩
      rw [Array.toList_push]
      exact List.mem_append_right _ (List.mem_singleton.mpr rfl)
  case h_2 => cases h

theorem hasBracket_of_openBracket (h : s.openBracket position = .ok t) : t.HasBracket := by
  unfold openBracket at h
  dsimp only at h
  split at h
  · cases h
  split at h
  case h_1 =>
      split at h
      · cases h
        exact Or.inl rfl
      · cases h
  case h_2 => cases h

/-- A bracket that has been met leaves its trace. -/
theorem HasBracket.step (h : s.HasBracket) (hstep : s.step position c = .ok t) :
    t.HasBracket := by
  unfold Scanner.step at hstep
  split at hstep
  case isTrue =>
      cases hstep
      exact h
  case isFalse =>
      split at hstep
      case isTrue => cases hstep
      case isFalse =>
          have h' : ({ s with closed := false } : Scanner).HasBracket := h
          unfold plainChar at hstep
          split at hstep
          · cases hstep
            exact h
          split at hstep
          · cases hstep
            exact h'.flush
          split at hstep
          · exact hasBracket_of_openBracket hstep
          split at hstep
          · exact hasBracket_of_closeBracket hstep
          split at hstep
          · cases hstep
            exact (h'.flush.setOpenCount _).emit
          split at hstep
          · unfold closeGroup at hstep
            dsimp only at hstep
            split at hstep
            · cases hstep
            · cases hstep
              exact (h'.flush.setOpenCount _).emit
          · cases hstep
            exact h

theorem HasBracket.run {text : List Char} (h : s.HasBracket)
    (hrun : s.run position text = .ok t) : t.HasBracket := by
  induction text generalizing s position with
  | nil =>
      cases hrun
      exact h
  | cons c rest ih =>
      rw [Scanner.run] at hrun
      obtain ⟨next, hnext, hrun⟩ := ok_of_bind hrun
      exact ih (h.step hnext) hrun

/-! ## Inside and outside of brackets -/

/-- Outside of quotes and not behind a bracket, a character is plain. -/
theorem step_of_outside (hquoting : s.quoting = .outside) (hclosed : s.closed = false) :
    s.step position c = s.plainChar position c := by
  have hs : ({ s with closed := false } : Scanner) = s := by
    obtain ⟨_, _, _, _, _, _, _, _⟩ := s
    cases hclosed
    rfl
  rw [step, if_neg (not_not_intro hquoting), hclosed, Bool.false_and, if_neg Bool.false_ne_true,
    hs]

theorem step_of_quoted (h : s.quoting ≠ .outside) : s.step position c = .ok (s.quotedChar c) :=
  if_pos h

theorem quoting_quotedChar (h : s.quoting ≠ .outside) :
    (s.quotedChar c).quoting = s.quoting.after c := by
  unfold quotedChar
  dsimp only
  cases hquoting : s.quoting with
  | outside => exact absurd hquoting h
  | inside => rfl
  | escaped => rfl

/-- Reading on from a quoting, no bracket stands outside of quotes, and all quotes are closed. -/
def Unbracketed : Quoting → List Char → Prop
  | q, [] => q = .outside
  | q, c :: rest => (q = .outside → c ≠ '[' ∧ c ≠ ']') ∧ Unbracketed (q.after c) rest

/-- The scanner `t` reads in a bracket, behind the tokens `front`, what `s` reads without one. -/
structure Mirrors (front : Array Token) (s t : Scanner) : Prop where
  noInner : s.inner = none
  inner : t.inner = some s.outer
  outer : t.outer = front
  noGroup : t.outerOpen = 0
  word : t.word = s.word
  quoting : t.quoting = s.quoting
  count : t.innerOpen = s.outerOpen
  notClosed : s.closed = false
  notClosed' : t.closed = false
  plain : ∀ token ∈ s.outer.toList, token.kind = .path → token = .path token.text

namespace Mirrors

variable {front : Array Token} {s' : Scanner}

/-- Both take in a token. -/
theorem emit (h : Mirrors front s t) (htoken : token.kind = .path → token = .path token.text) :
    Mirrors front (s.emit token) (t.emit token) := by
  have hs : s.emit token = { s with outer := s.outer.push token } := by
    rw [Scanner.emit, h.noInner]
  have ht : t.emit token = { t with inner := some (s.outer.push token) } := by
    rw [Scanner.emit, h.inner]
  rw [hs, ht]
  refine ⟨h.noInner, rfl, h.outer, h.noGroup, h.word, h.quoting, h.count, h.notClosed,
    h.notClosed', ?_⟩
  intro u hu
  rw [Array.toList_push] at hu
  rcases List.mem_append.mp hu with hu | hu
  · exact h.plain u hu
  · rw [List.mem_singleton.mp hu]
    exact htoken

/-- Both end the pending word. -/
theorem flush (h : Mirrors front s t) : Mirrors front s.flush t.flush := by
  unfold Scanner.flush
  rw [h.word]
  split
  case isTrue => exact h
  case isFalse =>
      refine emit (s := { s with word := "" }) (t := { t with word := "" }) ?_ ?_
      · exact ⟨h.noInner, h.inner, h.outer, h.noGroup, rfl, h.quoting, h.count, h.notClosed,
          h.notClosed', h.plain⟩
      · intro hkind
        rw [Token.ofWord_of_path hkind]
        rfl

/-- Both count open parentheses alike. -/
theorem setOpenCount (h : Mirrors front s t) (n : Nat) :
    Mirrors front (s.setOpenCount n) (t.setOpenCount n) := by
  have hs : s.setOpenCount n = { s with outerOpen := n } := by
    rw [Scanner.setOpenCount, h.noInner]
    rfl
  have ht : t.setOpenCount n = { t with innerOpen := n } := by
    rw [Scanner.setOpenCount, h.inner]
    rfl
  rw [hs, ht]
  exact ⟨h.noInner, h.inner, h.outer, h.noGroup, h.word, h.quoting, rfl, h.notClosed,
    h.notClosed', h.plain⟩

theorem openCount (h : Mirrors front s t) : t.openCount = s.openCount := by
  unfold Scanner.openCount
  rw [h.noInner, h.inner]
  exact h.count

/-- Both take a character between quotes. -/
theorem quotedChar (h : Mirrors front s t) (c : Char) :
    Mirrors front (s.quotedChar c) (t.quotedChar c) := by
  unfold Scanner.quotedChar
  rw [h.word, h.quoting]
  exact ⟨h.noInner, h.inner, h.outer, h.noGroup, rfl, rfl, h.count, h.notClosed,
    h.notClosed', h.plain⟩

/-- Both open a group. -/
theorem openGroup (h : Mirrors front s t) : Mirrors front s.openGroup t.openGroup := by
  unfold Scanner.openGroup
  dsimp only
  rw [h.flush.openCount]
  exact (h.flush.setOpenCount _).emit (fun hkind => nomatch hkind)

/-- Both close a group. -/
theorem closeGroup (h : Mirrors front s t) (hclose : s.closeGroup = .ok s') :
    ∃ t', t.closeGroup = .ok t' ∧ Mirrors front s' t' ∧ s'.quoting = s.quoting := by
  unfold Scanner.closeGroup at hclose ⊢
  dsimp only at hclose ⊢
  rw [h.flush.openCount]
  split at hclose
  case isTrue => cases hclose
  case isFalse hcount =>
      cases hclose
      refine ⟨_, if_neg hcount, (h.flush.setOpenCount _).emit (fun hkind => nomatch hkind), ?_⟩
      simp

/-- Both take a character outside of quotes, if it is no bracket. -/
theorem plainChar (h : Mirrors front s t) (hout : s.quoting = .outside)
    (hstep : s.plainChar position c = .ok s') (hflat : ¬ s'.HasBracket) (position' : Nat) :
    ∃ t', t.plainChar position' c = .ok t' ∧ Mirrors front s' t' ∧
      s'.quoting = Quoting.outside.after c ∧ c ≠ '[' ∧ c ≠ ']' := by
  unfold Scanner.plainChar at hstep ⊢
  split at hstep
  case isTrue hc =>
      cases hstep
      refine ⟨_, if_pos hc, ?_, (if_pos hc).symm, ?_⟩
      · rw [h.word]
        exact ⟨h.noInner, h.inner, h.outer, h.noGroup, rfl, rfl, h.count, h.notClosed,
          h.notClosed', h.plain⟩
      · rw [hc]
        decide
  case isFalse hc =>
      have hafter : Quoting.outside.after c = .outside := if_neg hc
      rw [if_neg hc, hafter]
      split at hstep
      case isTrue hblank =>
          cases hstep
          refine ⟨_, if_pos hblank, h.flush, by rw [quoting_flush, hout], ?_⟩
          constructor <;> rintro rfl <;> exact absurd hblank (by decide)
      case isFalse hblank =>
          rw [if_neg hblank]
          split at hstep
          case isTrue => exact absurd (hasBracket_of_openBracket hstep) hflat
          case isFalse hopen =>
              rw [if_neg hopen]
              split at hstep
              case isTrue => exact absurd (hasBracket_of_closeBracket hstep) hflat
              case isFalse hclose =>
                  rw [if_neg hclose]
                  split at hstep
                  case isTrue hgroup =>
                      cases hstep
                      refine ⟨_, if_pos hgroup, h.openGroup, ?_, hopen, hclose⟩
                      simp [Scanner.openGroup, hout]
                  case isFalse hgroup =>
                      rw [if_neg hgroup]
                      split at hstep
                      case isTrue hend =>
                          obtain ⟨t', ht', hmirrors, hquoting⟩ := h.closeGroup hstep
                          rw [if_pos hend]
                          exact ⟨t', ht', hmirrors, hquoting.trans hout, hopen, hclose⟩
                      case isFalse hend =>
                          cases hstep
                          refine ⟨_, if_neg hend, ?_, hout, hopen, hclose⟩
                          rw [h.word]
                          exact ⟨h.noInner, h.inner, h.outer, h.noGroup, rfl, h.quoting, h.count,
                            h.notClosed, h.notClosed', h.plain⟩

/-- A step without a bracket is the same step in a bracket. -/
theorem step (h : Mirrors front s t) (hstep : s.step position c = .ok s')
    (hflat : ¬ s'.HasBracket) (position' : Nat) :
    ∃ t', t.step position' c = .ok t' ∧ Mirrors front s' t' ∧
      s'.quoting = s.quoting.after c ∧ (s.quoting = .outside → c ≠ '[' ∧ c ≠ ']') := by
  by_cases hout : s.quoting = .outside
  · rw [step_of_outside hout h.notClosed] at hstep
    rw [step_of_outside (h.quoting.trans hout) h.notClosed', hout]
    obtain ⟨t', ht', hmirrors, hquoting, hplain⟩ := h.plainChar hout hstep hflat position'
    exact ⟨t', ht', hmirrors, hquoting, fun _ => hplain⟩
  · rw [step_of_quoted hout] at hstep
    cases hstep
    have hout' : t.quoting ≠ .outside := h.quoting ▸ hout
    exact ⟨_, step_of_quoted hout', h.quotedChar c, quoting_quotedChar hout,
      fun hplain => absurd hplain hout⟩

/-- A text without brackets is scanned in a bracket as it is scanned without one. -/
theorem run {text : List Char} (h : Mirrors front s t) (hrun : s.run position text = .ok s')
    (hflat : ¬ s'.HasBracket) (position' : Nat) :
    ∃ t', t.run position' text = .ok t' ∧ Mirrors front s' t' ∧
      (s'.quoting = .outside → Unbracketed s.quoting text) := by
  induction text generalizing s t position position' with
  | nil =>
      cases hrun
      exact ⟨t, rfl, h, id⟩
  | cons c rest ih =>
      rw [Scanner.run] at hrun
      obtain ⟨next, hnext, hrun⟩ := ok_of_bind hrun
      have hflat' : ¬ next.HasBracket := fun hbracket => hflat (hbracket.run hrun)
      obtain ⟨next', hnext', hmirrors, hquoting, hplain⟩ := h.step hnext hflat' position'
      obtain ⟨t', ht', hmirrors', hrest⟩ := ih hmirrors hrun (position' + c.utf8Size)
      refine ⟨t', ?_, hmirrors', fun hout => ⟨hplain, hquoting ▸ hrest hout⟩⟩
      rw [Scanner.run, hnext']
      exact ht'

end Mirrors

/-! ## Whole texts -/

theorem run_append (front back : List Char) :
    s.run position (front ++ back) =
      s.run position front >>= fun t => t.run (position + Text.byteSize front) back := by
  induction front generalizing s position with
  | nil => rfl
  | cons c rest ih =>
      rw [List.cons_append, run, run, bind_assoc, Text.byteSize_cons, ← Nat.add_assoc]
      exact bind_congr fun next => ih

/-- A scanner that has read the whole of a text that needs no bracket. -/
structure Scanned (s : Scanner) (ts : List Token) : Prop where
  flat : ¬ s.HasBracket
  quoting : s.quoting = .outside
  count : s.flush.outerOpen = 0
  tokens : s.flush.outer.toList = ts
  nonempty : ts ≠ []

/-- A scanner that finishes is outside of quotes, brackets and parentheses and has tokens. -/
theorem finish_cases {ts : List Token} (h : s.finish = .ok ts) :
    s.quoting = .outside ∧ s.flush.inner = none ∧ s.flush.outerOpen = 0 ∧
      s.flush.outer.toList = ts ∧ ts ≠ [] := by
  unfold finish at h
  split at h
  case isTrue => cases h
  case isFalse hquoting =>
      dsimp only at h
      split at h
      case isTrue => cases h
      case isFalse hinner =>
          split at h
          case isTrue => cases h
          case isFalse hcount =>
              split at h
              case isTrue => cases h
              case isFalse hempty =>
                  cases h
                  exact ⟨Decidable.not_not.mp hquoting, Option.not_isSome_iff_eq_none.mp hinner,
                    Decidable.not_not.mp hcount, rfl, fun hnil =>
                      hempty (Array.isEmpty_iff.mpr (Array.toList_eq_nil_iff.mp hnil))⟩

/-- What the scanner has read of a text that scans to tokens without brackets. -/
theorem scanned_of_tokenize {text : String} {ts : List Token} (h : tokenize text = .ok ts)
    (hts : ∀ t ∈ ts, t.kind ≠ .nestedPath) :
    ∃ s, Scanner.run {} 0 text.toList = .ok s ∧ s.Scanned ts := by
  obtain ⟨s, hrun, hfinish⟩ := ok_of_bind h
  obtain ⟨hquoting, hinner, hcount, htokens, hnonempty⟩ := finish_cases hfinish
  refine ⟨s, hrun, fun hbracket => ?_, hquoting, hcount, htokens, hnonempty⟩
  rcases hbracket.flush with hflush | ⟨t, ht, hkind⟩
  · rw [hinner] at hflush
    cases hflush
  · exact hts t (htokens ▸ ht) hkind

/-- A scanner that has met no bracket from its start on goes beside one in a bracket. -/
theorem mirrors_of_run {text : List Char} (hrun : Scanner.run {} position text = .ok s)
    (hflat : ¬ s.HasBracket) :
    ∃ t, Mirrors #[] s t ∧ (s.quoting = .outside → Unbracketed .outside text) := by
  have hstart : Mirrors #[] {} { inner := some #[] } :=
    ⟨rfl, rfl, rfl, rfl, rfl, rfl, rfl, rfl, rfl, fun _ h => absurd h List.not_mem_nil⟩
  obtain ⟨t, _, hmirrors, htext⟩ := hstart.run hrun hflat 0
  exact ⟨t, hmirrors, htext⟩

/-- A bracket opens behind a path. -/
theorem step_openBracket {name : String} (position : Nat) (h : s.Scanned [.path name])
    (hclosed : s.closed = false) :
    ∃ t, s.step position '[' = .ok t ∧ Mirrors #[.path name] {} t := by
  have houter : s.flush.outer = #[.path name] := Array.toList_inj.mp h.tokens
  have hinner : s.flush.inner = none :=
    inner_flush (Option.not_isSome_iff_eq_none.mp fun hinner => h.flat (Or.inl hinner))
  refine ⟨{ s.flush with inner := some #[], innerOpen := 0 }, ?_, ?_⟩
  · rw [step_of_outside h.quoting hclosed]
    show s.openBracket position = _
    unfold openBracket
    dsimp only
    rw [hinner, houter]
    rfl
  · refine ⟨rfl, rfl, houter, h.count, word_flush, ?_, rfl, rfl, ?_, ?_⟩
    · rw [quoting_flush, h.quoting]
    · rw [closed_flush, hclosed]
    · exact fun _ h => absurd h List.not_mem_nil

/-- A bracket closes behind the tokens of a filter. -/
theorem finish_closeBracket {name : String} {ts : List Token} (h : s.Scanned ts)
    (hmirrors : Mirrors #[.path name] s t) :
    ∃ t', t.step position ']' = .ok t' ∧ t'.finish = .ok [.withFilter name ts] := by
  have hflush := hmirrors.flush
  refine ⟨{ t.flush with
    outer := #[.withFilter name ts], inner := none, closed := true }, ?_, ?_⟩
  · rw [step_of_outside (hmirrors.quoting.trans h.quoting) hmirrors.notClosed']
    show t.closeBracket position = _
    unfold closeBracket
    rw [hmirrors.inner]
    dsimp only
    rw [hflush.inner, hflush.outer, hflush.count, h.count]
    have hempty : ¬ ts.isEmpty = true := fun hnil => h.nonempty (List.isEmpty_iff.mp hnil)
    have hsome : ¬ (some s.outer).isNone = true := Bool.false_ne_true
    rw [if_neg hsome, if_neg (not_not_intro rfl), Option.getD_some, h.tokens, if_neg hempty]
    rfl
  · have hquoting : t.flush.quoting = .outside := by
      rw [quoting_flush, hmirrors.quoting, h.quoting]
    unfold finish
    rw [if_neg (not_not_intro hquoting), flush, if_pos (String.isEmpty_iff.mpr word_flush)]
    dsimp only
    rw [hflush.noGroup]
    rfl

end Scanner

/-- A text whose tokens have no brackets has none outside of quotes, and its paths are plain. -/
theorem unbracketed_of_tokenize {text : String} {ts : List Token} (h : tokenize text = .ok ts)
    (hts : ∀ t ∈ ts, t.kind ≠ .nestedPath) :
    Scanner.Unbracketed .outside text.toList ∧ ∀ t ∈ ts, t.kind = .path → t = .path t.text := by
  obtain ⟨s, hs, hscanned⟩ := Scanner.scanned_of_tokenize h hts
  obtain ⟨_, hmirrors, htext⟩ := Scanner.mirrors_of_run hs hscanned.flat
  exact ⟨htext hscanned.quoting, hscanned.tokens ▸ hmirrors.flush.plain⟩

/-- A filter behind a path scans to one token of the path and the tokens of the filter. -/
theorem tokenize_bracket {name text : String} {ts : List Token}
    (hname : tokenize name = .ok [.path name]) (htext : tokenize text = .ok ts)
    (hts : ∀ t ∈ ts, t.kind ≠ .nestedPath) :
    tokenize (name ++ "[" ++ text ++ "]") = .ok [.withFilter name ts] := by
  obtain ⟨s, hs, hscanned⟩ := Scanner.scanned_of_tokenize hname (by simp [Token.path])
  obtain ⟨_, hbeside, _⟩ := Scanner.mirrors_of_run hs hscanned.flat
  obtain ⟨t, ht, hopened⟩ := Scanner.step_openBracket (Text.byteSize name.toList) hscanned
    hbeside.notClosed
  obtain ⟨u, hu, hread⟩ := Scanner.scanned_of_tokenize htext hts
  obtain ⟨v, hv, hmirrors, _⟩ := hopened.run hu hread.flat _
  obtain ⟨w, hw, hfinish⟩ := Scanner.finish_closeBracket hread hmirrors
  have hlist : (name ++ "[" ++ text ++ "]").toList =
      name.toList ++ '[' :: (text.toList ++ [']']) := by simp
  unfold tokenize
  rw [hlist, Scanner.run_append, hs]
  show (Scanner.run s _ ('[' :: (text.toList ++ [']'])) >>= Scanner.finish) = _
  rw [Scanner.run, Nat.zero_add, ht]
  show (Scanner.run t _ (text.toList ++ [']']) >>= Scanner.finish) = _
  rw [Scanner.run_append, hv]
  show (Scanner.run v _ [']'] >>= Scanner.finish) = _
  rw [Scanner.run, hw]
  exact hfinish

end Scim.Filter
