import Scim.Proofs.Filter.Assembly

/-!
# How long the paths of a filter are

The tokens and the pending word of a scanner take no more bytes than it has read
(`Scanner.extent_of_run`), if a bracket counts with all the tokens in it (`Token.extent`).

Splicing writes paths that do not stand in the text: the path before a bracket is put in front of
every path in it.  What joins them is a dot where the text has a bracket, so a spliced path is still
no longer than the token that it comes from (`le_extent_of_spliceToken`).  Every path of a tree that
is read is therefore at most as long as the text.
-/

namespace Scim.Filter

variable {t : Token} {ts flat : List Token} {text : String}

/-- The sum of the sizes of tokens. -/
def total (size : Token → Nat) : List Token → Nat
  | [] => 0
  | t :: rest => size t + total size rest

/-- The bytes that the text of a token takes. -/
def Token.textSize (t : Token) : Nat := t.text.utf8ByteSize

/-- The bytes that a token takes, with the tokens in its bracket and the bracket itself. -/
def Token.extent (t : Token) : Nat :=
  t.textSize + (t.nested?.map fun inner => total textSize inner + 2).getD 0

section

variable {size : Token → Nat}

@[simp] theorem total_push (tokens : Array Token) :
    total size (tokens.push t).toList = total size tokens.toList + size t := by
  rw [Array.toList_push]
  induction tokens.toList with
  | nil => simp [total]
  | cons u rest ih => rw [List.cons_append, total, total, ih, Nat.add_assoc]

theorem le_total_of_mem (h : t ∈ ts) : size t ≤ total size ts := by
  induction ts with
  | nil => exact absurd h List.not_mem_nil
  | cons u rest ih =>
      rcases List.mem_cons.mp h with rfl | h
      · exact Nat.le_add_right _ _
      · exact Nat.le_add_left_of_le (ih h)

end

namespace Token

theorem extent_of_plain (h : t.nested? = none) : t.extent = t.textSize := by
  rw [extent, h]
  rfl

theorem textSize_le_extent (t : Token) : t.textSize ≤ t.extent := Nat.le_add_right _ _

/-- A word keeps its text, however it is classified, and has no bracket. -/
theorem ofWord_plain (word : String) : (ofWord word).text = word ∧ (ofWord word).nested? = none := by
  unfold ofWord
  split
  case h_1 => exact ⟨rfl, rfl⟩
  case h_2 =>
      split
      case isTrue hparen => rcases hparen with rfl | rfl <;> exact ⟨rfl, rfl⟩
      case isFalse => split <;> exact ⟨rfl, rfl⟩

end Token

/-! ## Scanning -/

namespace Scanner

variable {s s' : Scanner} {c : Char} {position : Nat} {chars : List Char}

/-- The bytes that the tokens and the pending word take. -/
def extent (s : Scanner) : Nat :=
  total Token.extent s.outer.toList +
    (s.inner.map fun tokens => total Token.textSize tokens.toList + 1).getD 0 + s.word.utf8ByteSize

@[simp] theorem extent_setOpenCount (n : Nat) : (s.setOpenCount n).extent = s.extent := by
  unfold setOpenCount
  split <;> rfl

/-- A token without a bracket takes its text, wherever it is added. -/
theorem extent_emit (h : t.nested? = none) : (s.emit t).extent = s.extent + t.textSize := by
  unfold emit
  split
  case h_1 tokens hinner =>
      simp only [extent, hinner, total_push, Option.map_some, Option.getD_some]
      omega
  case h_2 hinner =>
      simp only [extent, hinner, total_push, Token.extent_of_plain h]
      omega

@[simp] theorem extent_flush : s.flush.extent = s.extent := by
  unfold flush
  split
  case isTrue => rfl
  case isFalse =>
      obtain ⟨htext, hplain⟩ := Token.ofWord_plain s.word
      rw [extent_emit hplain, Token.textSize, htext]
      rfl

/-- A character adds at most its own bytes. -/
theorem extent_of_moves (h : Moves s c s') : s'.extent ≤ s.extent + c.utf8Size := by
  cases h with
  | push _ start =>
      simp only [extent, String.utf8ByteSize_push]
      omega
  | blank => simp
  | openBracket _ hinner _ _ =>
      have hflush : s.flush.extent = s.extent := extent_flush
      rw [← hflush]
      simp only [extent, hinner, Option.map_none, Option.map_some, Option.getD_none,
        Option.getD_some]
      show _ + (0 + 1) + _ ≤ _ + 0 + _ + 1
      omega
  | @closeBracket path tokens _ hinner _ _ hlast =>
      have hflush : s.flush.extent = s.extent := extent_flush
      obtain ⟨before, hbefore⟩ := Array.back?_eq_some_iff.mp hlast
      have hpath := path.textSize_le_extent
      have hbracket : (Token.withFilter path.text tokens.toList).extent =
          path.textSize + (total Token.textSize tokens.toList + 2) := rfl
      have hsize : (']' : Char).utf8Size = 1 := rfl
      rw [← hflush]
      simp only [extent, hinner, hbefore, hbracket, hsize, Array.pop_push, total_push,
        Option.map_none, Option.map_some, Option.getD_none, Option.getD_some]
      omega
  | openGroup =>
      rw [openGroup, extent_emit rfl, extent_setOpenCount, extent_flush]
      exact Nat.le_refl _
  | closeGroup =>
      rw [extent_emit rfl, extent_setOpenCount, extent_flush]
      exact Nat.le_refl _

theorem extent_of_step (h : s.step position c = .ok s') :
    s'.extent ≤ s.extent + c.utf8Size := by
  obtain ⟨closed, hmoves⟩ := moves_of_step h
  -- The mark of a closed bracket takes no bytes.
  have hmarked : ({ s with closed := closed } : Scanner).extent = s.extent := rfl
  rw [← hmarked]
  exact extent_of_moves hmoves

/-- What the scanner holds is no longer than what it has read. -/
theorem extent_of_run (h : s.run position chars = .ok s') :
    s'.extent ≤ s.extent + Text.byteSize chars := by
  induction chars generalizing s position with
  | nil =>
      cases h
      exact Nat.le_refl _
  | cons c rest ih =>
      rw [run] at h
      obtain ⟨next, hstep, h⟩ := ok_of_bind h
      have hnext := extent_of_step hstep
      have hrest := ih h
      rw [Text.byteSize_cons]
      omega

end Scanner

/-- The tokens of a text are together no longer than the text. -/
theorem total_extent_of_tokenize (h : tokenize text = .ok ts) :
    total Token.extent ts ≤ text.utf8ByteSize := by
  obtain ⟨s, hrun, hfinish⟩ := ok_of_bind h
  obtain ⟨_, _, _, htokens, _⟩ := Scanner.finish_cases hfinish
  have hflush : s.flush.extent = s.extent := Scanner.extent_flush
  have hstart : ({} : Scanner).extent = 0 := rfl
  have hextent := Scanner.extent_of_run hrun
  rw [Text.byteSize_toList, ← hflush, Scanner.extent, htokens] at hextent
  omega

/-! ## Splicing -/

/-- A path under an outer one is as long as both and a dot. -/
theorem textSize_of_spliceInner {outer : String} {u : Token} (h : spliceInner outer t = .ok u)
    (hkind : u.kind = .path) : u.textSize = outer.utf8ByteSize + 1 + t.textSize := by
  unfold spliceInner at h
  split at h
  case h_1 =>
      cases h
      show (outer ++ "." ++ t.text).utf8ByteSize = _
      rw [String.utf8ByteSize_append, String.utf8ByteSize_append]
      rfl
  case h_2 => cases h
  case h_3 hne _ =>
      cases h
      exact absurd hkind hne

/-- No path that is spliced from a token is longer than the token. -/
theorem le_extent_of_spliceToken (h : spliceToken t = .ok flat) :
    ∀ u ∈ flat, u.kind = .path → u.textSize ≤ t.extent := by
  intro u hu hkind
  unfold spliceToken at h
  split at h
  case isFalse =>
      cases h
      rw [List.mem_singleton.mp hu]
      exact t.textSize_le_extent
  case isTrue =>
      split at h
      case h_2 => cases h
      case h_1 tokens hdetail =>
          obtain ⟨inner, hinner, h⟩ := ok_of_bind h
          cases h
          have hmem : u ∈ inner := by
            rcases List.mem_append.mp hu with hu | hu
            · rcases List.mem_cons.mp hu with rfl | hu
              · cases hkind
              · exact hu
            · rw [List.mem_singleton.mp hu] at hkind
              cases hkind
          obtain ⟨v, hv, huv⟩ := exists_of_mapM hinner u hmem
          have hextent : t.extent = t.text.utf8ByteSize + (total Token.textSize tokens + 2) := by
            rw [Token.extent, Token.nested?, hdetail]
            rfl
          have hle : v.textSize ≤ total Token.textSize tokens := le_total_of_mem hv
          rw [textSize_of_spliceInner huv hkind]
          omega

/-- No path among spliced tokens is longer than the tokens that were spliced. -/
theorem le_total_extent_of_splice (h : splice ts = .ok flat) :
    ∀ u ∈ flat, u.kind = .path → u.textSize ≤ total Token.extent ts := by
  induction ts generalizing flat with
  | nil =>
      cases h
      exact fun u hu => absurd hu List.not_mem_nil
  | cons t rest ih =>
      obtain ⟨front, hfront, h⟩ := ok_of_bind h
      obtain ⟨back, hback, h⟩ := ok_of_bind h
      cases h
      intro u hu hkind
      rw [total]
      rcases List.mem_append.mp hu with hu | hu
      · exact Nat.le_add_right_of_le (le_extent_of_spliceToken hfront u hu hkind)
      · exact Nat.le_add_left_of_le (ih hback u hu hkind)

/-! ## Reading -/

/-- No path of a tree is longer than the text that is read as the tree. -/
theorem textSize_of_read {limit : Nat} {tree : Tree} (h : read limit text = .ok tree) :
    tree.Forall fun t => t.kind = .path → t.textSize ≤ text.utf8ByteSize := by
  obtain ⟨ts, hts, hparse⟩ := read_cases h
  obtain ⟨flat, hflat, hruns, _⟩ := runs_of_parse hparse
  refine hruns.forall_tokens fun t ht hkind => ?_
  exact Nat.le_trans (le_total_extent_of_splice hflat t ht hkind) (total_extent_of_tokenize hts)

end Scim.Filter
