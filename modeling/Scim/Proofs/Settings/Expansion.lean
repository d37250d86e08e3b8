import Mathlib.Data.List.Forall2
import Mathlib.Data.List.TakeWhile
import Scim.Proofs.Outcome
import Scim.Settings.Basic

/-!
# Expanding the references of assignments

What becomes of a text whose lines are assignments such as `level = "debug"`.

A text is read into *pieces*, which are references and single characters (`Reads`).  To fill the
pieces is to put the value of its variable in the place of every reference, unless one of the
variables is not set (`filled`).  The references of a line count up to the first `#` on it, even if
that `#` stands between the quotes of a value: those behind it are taken for plain text (`settled`).

A line is expanded by filling its settled pieces (`expandLine_eq`), and a text of assignments is
expanded line by line (`expand_assignments`).  Where no reference stands behind a `#` nothing has to
be settled (`settled_eq_self`), and then every reference is filled.
-/

namespace Scim.Settings.Environment

/-! ## Pieces -/

/-- A piece of a text. -/
inductive Piece where
  /-- A character that stands for itself. -/
  | char (c : Char)
  /-- A reference to a variable. -/
  | reference (name : String)

variable {valueOf : String → Option String} {s t : List Char} {ps qs : List Piece}
  {name : String}

namespace Piece

/-- The piece as it is written. -/
def text : Piece → List Char
  | char c => [c]
  | reference name => '$' :: '\x7b' :: (name.toList ++ ['\x7d'])

/-- The name of the variable that the piece refers to, if it is not set. -/
def unset? (valueOf : String → Option String) : Piece → Option String
  | char _ => none
  | reference name => if (valueOf name).isNone then some name else none

/-- The piece with the value of its variable in the place of a reference. -/
def filled (valueOf : String → Option String) : Piece → List Char
  | char c => [c]
  | reference name => ((valueOf name).getD "").toList

end Piece

/-- A text starts with a reference. -/
def OpensWithReference (s : List Char) : Prop :=
  ∃ name rest, name ≠ "" ∧ '\x7d' ∉ name.toList ∧ s = (Piece.reference name).text ++ rest

/-- A text has these pieces.  References are found from left to right and do not overlap. -/
inductive Reads : List Char → List Piece → Prop where
  | nil : Reads [] []
  | char {c : Char} {s : List Char} {ps : List Piece} (hplain : ¬ OpensWithReference (c :: s))
      (hs : Reads s ps) : Reads (c :: s) (.char c :: ps)
  | reference {name : String} {s : List Char} {ps : List Piece} (hne : name ≠ "")
      (hname : '\x7d' ∉ name.toList) (hs : Reads s ps) :
      Reads ((Piece.reference name).text ++ s) (.reference name :: ps)

/-- The text of pieces with every reference filled, or the name of the first variable that is not
set. -/
def filled (valueOf : String → Option String) (ps : List Piece) : Except String (List Char) :=
  match ps.findSome? (Piece.unset? valueOf) with
  | some name => .error name
  | none => .ok (ps.flatMap (Piece.filled valueOf))

/-- The pieces with all references behind the first `#` taken for plain text. -/
def settled : List Piece → List Piece
  | [] => []
  | p :: rest =>
      if '#' ∈ p.text then p :: (rest.flatMap Piece.text).map .char else p :: settled rest

/-- No reference stands behind a `#`. -/
def Clear (ps : List Piece) : Prop :=
  ∀ front back, ps = front ++ back → (∃ p ∈ front, '#' ∈ p.text) →
    ∀ name, Piece.reference name ∉ back

/-! ## Reading -/

/-- Every text has pieces. -/
theorem exists_reads (s : List Char) : ∃ ps, Reads s ps := by
  induction hlength : s.length using Nat.strongRecOn generalizing s with
  | ind n ih =>
      subst hlength
      cases s with
      | nil => exact ⟨[], .nil⟩
      | cons c rest =>
          by_cases hopens : OpensWithReference (c :: rest)
          · obtain ⟨name, rest', hne, hname, heq⟩ := hopens
            have hshorter : rest'.length < (c :: rest).length := by
              rw [heq, List.length_append, Piece.text, List.length_cons]
              omega
            obtain ⟨ps, hps⟩ := ih rest'.length hshorter rest' rfl
            rw [heq]
            exact ⟨_, .reference hne hname hps⟩
          · obtain ⟨ps, hps⟩ := ih rest.length (Nat.lt_succ_self _) rest rfl
            exact ⟨_, .char hopens hps⟩

theorem Reads.flatMap_text (h : Reads s ps) : ps.flatMap Piece.text = s := by
  induction h with
  | nil => rfl
  | char _ _ ih => rw [List.flatMap_cons, ih]; rfl
  | reference _ _ _ ih => rw [List.flatMap_cons, ih]

/-- A dollar sign starts every reference. -/
theorem not_opensWithReference {c : Char} (h : c ≠ '$') : ¬ OpensWithReference (c :: s) := by
  rintro ⟨_, _, _, _, heq⟩
  exact h (List.cons.inj heq).1

/-- Characters that are no dollar signs stand for themselves. -/
theorem Reads.append_left (h : Reads s ps) (ht : ∀ c ∈ t, c ≠ '$') :
    Reads (t ++ s) (t.map .char ++ ps) := by
  induction t with
  | nil => exact h
  | cons c rest ih =>
      obtain ⟨hc, hrest⟩ := List.forall_mem_cons.mp ht
      exact .char (not_opensWithReference hc) (ih hrest)

/-- A quote ends no reference, so it does not matter to what stands before it. -/
theorem Reads.append_quote (h : Reads s ps) : Reads (s ++ ['"']) (ps ++ [.char '"']) := by
  induction h with
  | nil => exact .char (not_opensWithReference (by decide)) .nil
  | @char c s ps hplain _ ih =>
      refine .char ?_ ih
      rintro ⟨name, rest, hne, hname, heq⟩
      have heq : (c :: s) ++ ['"'] = (Piece.reference name).text ++ rest := heq
      rcases List.eq_nil_or_concat rest with rfl | ⟨rest', d, rfl⟩
      · -- The text ends with a quote and not with the brace of a reference.
        have hlast := congrArg List.getLast? heq
        rw [List.append_nil, Piece.text, ← List.cons_append, ← List.cons_append,
          List.getLast?_concat, List.getLast?_concat] at hlast
        cases hlast
      · rw [List.concat_eq_append, ← List.append_assoc] at heq
        exact hplain ⟨name, rest', hne, hname, List.append_inj_left' heq rfl⟩
  | reference hne hname _ ih =>
      rw [List.append_assoc]
      exact .reference hne hname ih

/-! ## Filling -/

theorem filled_append : filled valueOf (ps ++ qs) =
    filled valueOf ps >>= fun a => filled valueOf qs >>= fun b => .ok (a ++ b) := by
  unfold filled
  rw [List.findSome?_append]
  cases ps.findSome? (Piece.unset? valueOf) with
  | some name => rfl
  | none =>
      rw [Option.none_or, List.flatMap_append]
      cases qs.findSome? (Piece.unset? valueOf) <;> rfl

theorem filled_char {c : Char} :
    filled valueOf (.char c :: ps) = filled valueOf ps >>= fun b => .ok (c :: b) := by
  rw [← List.singleton_append, filled_append]
  rfl

/-- Plain text is filled already. -/
theorem filled_chars (s : List Char) : filled valueOf (s.map .char) = .ok s := by
  induction s with
  | nil => rfl
  | cons c rest ih => rw [List.map_cons, filled_char, ih, ok_bind]

theorem filled_reference : filled valueOf (.reference name :: ps) =
    match valueOf name with
    | none => .error name
    | some value => filled valueOf ps >>= fun b => .ok (value.toList ++ b) := by
  rw [← List.singleton_append, filled_append, filled, List.findSome?_singleton, Piece.unset?]
  cases hvalue : valueOf name with
  | none => rfl
  | some value => simp [Piece.filled, hvalue]

theorem settled_of_hash {p : Piece} (h : '#' ∈ p.text) :
    settled (p :: ps) = p :: (ps.flatMap Piece.text).map .char := by
  rw [settled, if_pos h]

theorem settled_of_plain {p : Piece} (h : '#' ∉ p.text) : settled (p :: ps) = p :: settled ps := by
  rw [settled, if_neg h]

/-- What stands in front of the first `#` stays as it is. -/
theorem settled_append_left (h : ∀ p ∈ ps, '#' ∉ p.text) :
    settled (ps ++ qs) = ps ++ settled qs := by
  induction ps with
  | nil => rfl
  | cons p rest ih =>
      obtain ⟨hp, hrest⟩ := List.forall_mem_cons.mp h
      rw [List.cons_append, settled_of_plain hp, ih hrest, List.cons_append]

theorem settled_concat {c : Char} (hc : c ≠ '#') :
    settled (ps ++ [.char c]) = settled ps ++ [.char c] := by
  induction ps with
  | nil => exact settled_of_plain fun hmem => hc (List.mem_singleton.mp hmem).symm
  | cons p rest ih =>
      rw [List.cons_append]
      by_cases hp : '#' ∈ p.text
      · rw [settled_of_hash hp, settled_of_hash hp, List.flatMap_append, List.map_append]
        rfl
      · rw [settled_of_plain hp, settled_of_plain hp, ih, List.cons_append]

/-- Pieces without references are the characters of their text. -/
theorem chars_of_no_reference (h : ∀ name, Piece.reference name ∉ ps) :
    (ps.flatMap Piece.text).map .char = ps := by
  induction ps with
  | nil => rfl
  | cons p rest ih =>
      cases p with
      | char c =>
          rw [List.flatMap_cons, Piece.text, List.singleton_append, List.map_cons,
            ih fun name hmem => h name (List.mem_cons_of_mem _ hmem)]
      | reference name => exact absurd List.mem_cons_self (h name)

/-- Nothing has to be settled if no reference stands behind a `#`. -/
theorem settled_eq_self (h : Clear ps) : settled ps = ps := by
  induction ps with
  | nil => rfl
  | cons p rest ih =>
      by_cases hp : '#' ∈ p.text
      · have hplain := h [p] rest rfl ⟨p, List.mem_singleton_self p, hp⟩
        rw [settled_of_hash hp, chars_of_no_reference hplain]
      · rw [settled_of_plain hp, ih fun front back heq hhash => ?_]
        obtain ⟨q, hq, hmem⟩ := hhash
        exact h (p :: front) back (by rw [heq, List.cons_append])
          ⟨q, List.mem_cons_of_mem _ hq, hmem⟩

/-- A name behind an opening, up to the closing brace, is that of a reference. -/
theorem reference?_append (hne : name ≠ "") (hname : '\x7d' ∉ name.toList) (s : List Char) :
    reference? (name.toList ++ '\x7d' :: s) = some (name, s) := by
  have hplain : ∀ c ∈ name.toList, (c != '\x7d') = true := fun c hc =>
    bne_iff_ne.mpr fun h => hname (h ▸ hc)
  have hempty : ¬ name.toList.isEmpty = true := by simpa using hne
  rw [reference?, List.takeWhile_append_of_pos hplain, List.dropWhile_append_of_pos hplain]
  simp [hempty]

theorem opensWithReference_of_reference? {rest : List Char}
    (h : reference? s = some (name, rest)) : OpensWithReference ('$' :: '\x7b' :: s) := by
  unfold reference? at h
  dsimp only at h
  split at h
  case h_1 => cases h
  case h_2 c _ hdrop =>
      split at h
      case isTrue => cases h
      case isFalse hempty =>
          cases h
          have hc : c = '\x7d' := by
            have hhead := List.head?_dropWhile_not (· != '\x7d') s
            rw [hdrop] at hhead
            simpa using hhead
          refine ⟨String.ofList (s.takeWhile (· != '\x7d')), rest, ?_, ?_, ?_⟩
          · simpa [← String.toList_inj] using hempty
          · rw [String.toList_ofList]
            exact fun hmem => absurd (List.mem_takeWhile_imp hmem) (by decide)
          · have hsplit : s.takeWhile (· != '\x7d') ++ s.dropWhile (· != '\x7d') = s :=
              List.takeWhile_append_dropWhile
            rw [hdrop, hc] at hsplit
            simp [Piece.text, hsplit]

/-- A line is expanded by filling its pieces up to the first `#`. -/
theorem expandLine_eq (h : Reads s ps) : expandLine valueOf s = filled valueOf (settled ps) := by
  induction h with
  | nil => rw [expandLine]; rfl
  | @char c s ps hplain hs ih =>
      by_cases hhash : c = '#'
      · subst hhash
        rw [settled_of_hash List.mem_cons_self, hs.flatMap_text, ← List.map_cons, filled_chars,
          expandLine]
        · rfl
        · exact fun _ hdollar => absurd hdollar (by decide)
      · have hnone : '#' ∉ (Piece.char c).text := fun hmem =>
          hhash (List.mem_singleton.mp hmem).symm
        rw [settled_of_plain hnone, filled_char, ← ih]
        -- A dollar sign and a brace can open a reference that is never closed.
        by_cases hopening : ∃ s', c = '$' ∧ s = '\x7b' :: s'
        · obtain ⟨s', rfl, rfl⟩ := hopening
          have hreference : reference? s' = none := by
            rw [Option.eq_none_iff_forall_ne_some]
            exact fun found hfound => hplain (opensWithReference_of_reference? hfound)
          rw [expandLine]
          split
          · rfl
          · rename_i hsome
            cases hreference.symm.trans hsome
        · rw [expandLine, if_neg hhash]
          rintro s' rfl rfl
          exact hopening ⟨s', rfl, rfl⟩
  | @reference name s ps hne hname hs ih =>
      have hline : (Piece.reference name).text ++ s =
          '$' :: '\x7b' :: (name.toList ++ '\x7d' :: s) := by simp [Piece.text]
      have hhash : '#' ∈ (Piece.reference name).text ↔ '#' ∈ name.toList := by simp [Piece.text]
      rw [hline, expandLine]
      split
      case h_1 hnone => cases (reference?_append hne hname s).symm.trans hnone
      case h_2 found rest hsome =>
          cases (reference?_append hne hname s).symm.trans hsome
          by_cases hmem : '#' ∈ name.toList
          · rw [settled_of_hash (hhash.mpr hmem), filled_reference, hs.flatMap_text, filled_chars]
            cases valueOf name with
            | none => rfl
            | some value => simp [hmem]
          · rw [settled_of_plain (mt hhash.mp hmem), filled_reference, ih]
            cases valueOf name with
            | none => rfl
            | some value => simp [hmem]

/-! ## Assignments -/

/-- A line that gives a key a text between quotes. -/
structure Assignment where
  /-- The key. -/
  key : String
  /-- The text between the quotes. -/
  value : String

namespace Assignment

/-- What stands in front of the value. -/
def front (a : Assignment) : List Char := a.key.toList ++ [' ', '=', ' ', '"']

/-- The line as it is written. -/
def text (a : Assignment) : List Char := a.front ++ (a.value.toList ++ ['"'])

/-- The pieces of the line, given those of the value. -/
def pieces (a : Assignment) (ps : List Piece) : List Piece :=
  a.front.map .char ++ (ps ++ [.char '"'])

/-- The key is made of letters, digits, `_` and `-`, and the value has no quotes, no backslashes
and no line ends, so that it is the string between the quotes. -/
structure IsPlain (a : Assignment) : Prop where
  nonempty : a.key ≠ ""
  key : ∀ c ∈ a.key.toList, c.isAlphanum = true ∨ c = '_' ∨ c = '-'
  value : ∀ c ∈ a.value.toList, c ∉ ['"', '\\', '\n', '\r']

instance (a : Assignment) : Decidable a.IsPlain :=
  decidable_of_iff
    (a.key ≠ "" ∧
      a.key.toList.all (fun c => decide (c.isAlphanum = true ∨ c = '_' ∨ c = '-')) = true ∧
      a.value.toList.all (fun c => decide (c ∉ ['"', '\\', '\n', '\r'])) = true)
    ⟨fun ⟨hne, hkey, hvalue⟩ => ⟨hne,
        fun c hc => of_decide_eq_true (List.all_eq_true.mp hkey c hc),
        fun c hc => of_decide_eq_true (List.all_eq_true.mp hvalue c hc)⟩,
      fun h => ⟨h.nonempty, List.all_eq_true.mpr fun c hc => decide_eq_true (h.key c hc),
        List.all_eq_true.mpr fun c hc => decide_eq_true (h.value c hc)⟩⟩

variable {a : Assignment}

/-- What stands in front of the value has no dollar sign, no `#` and no line end. -/
theorem IsPlain.front_not_mem (h : a.IsPlain) {d : Char} (hd : d ∈ ['$', '#', '\n']) :
    d ∉ a.front := by
  intro hmem
  simp only [List.mem_cons, List.not_mem_nil, or_false] at hd
  rcases List.mem_append.mp hmem with hkey | hrest
  · have hform := h.key d hkey
    rcases hd with rfl | rfl | rfl <;> exact absurd hform (by decide)
  · rcases hd with rfl | rfl | rfl <;> exact absurd hrest (by decide)

theorem IsPlain.newline_not_mem (h : a.IsPlain) : '\n' ∉ a.text := by
  simp only [text, List.mem_append, not_or]
  exact ⟨h.front_not_mem (by decide), fun hmem => h.value _ hmem (by decide), by decide⟩

/-- The pieces of a line are those of its value between characters. -/
theorem IsPlain.reads (h : a.IsPlain) (hps : Reads a.value.toList ps) :
    Reads a.text (a.pieces ps) :=
  hps.append_quote.append_left fun _ hc hdollar =>
    h.front_not_mem (by decide) (hdollar ▸ hc)

/-- The `#` that settles a line stands in its value. -/
theorem IsPlain.settled_pieces (h : a.IsPlain) (ps : List Piece) :
    settled (a.pieces ps) = a.pieces (settled ps) := by
  rw [pieces, settled_append_left, settled_concat (by decide)]
  · rfl
  · intro p hp hmem
    obtain ⟨c, hc, rfl⟩ := List.mem_map.mp hp
    rw [Piece.text, List.mem_singleton] at hmem
    exact h.front_not_mem (by decide) (hmem ▸ hc)

end Assignment

/-! ## Texts of assignments -/

/-- Lines one after the other, each with its end, which the last one may lack. -/
def joined {α : Type} (ended : Bool) : List (List α × List α) → List α
  | [] => []
  | [(line, lineEnd)] => line ++ if ended then lineEnd else []
  | (line, lineEnd) :: rest => line ++ (lineEnd ++ joined ended rest)

/-- A line end is a line feed, with or without a carriage return in front of it. -/
def lineEnd (returns : Bool) : List Char := if returns then ['\r', '\n'] else ['\n']

/-- A text of assignments, each with or without a carriage return at its end. -/
def document (ended : Bool) (lines : List (Assignment × Bool)) : List Char :=
  joined ended (lines.map fun l => (l.1.text, lineEnd l.2))

/-- The pieces of a text of assignments, given those of the values.  Line ends are line feeds. -/
def piecesOf (ended : Bool) (lines : List (Assignment × Bool)) (readings : List (List Piece)) :
    List Piece :=
  joined ended ((List.zipWith (fun l ps => l.1.pieces ps) lines readings).map (·, [.char '\n']))

theorem linesFrom_append {line : List Char} (h : '\n' ∉ s) (rest : List Char) :
    linesFrom line (s ++ rest) = linesFrom (s.reverse ++ line) rest := by
  induction s generalizing line with
  | nil => rfl
  | cons c s ih =>
      simp only [List.mem_cons, not_or] at h
      rw [List.cons_append, linesFrom, ih h.2, List.reverse_cons, List.append_assoc,
        List.singleton_append]
      exact fun hc => h.1 hc.symm

/-- A line that ends with a quote is cut off at its end. -/
theorem linesFrom_line (h : '\n' ∉ s) (returns : Bool) (rest : List Char) :
    linesFrom [] (s ++ ['"'] ++ (lineEnd returns ++ rest)) =
      (s ++ ['"']) :: linesFrom [] rest := by
  have hmem : '\n' ∉ s ++ ['"'] := by simp [h]
  rw [linesFrom_append hmem]
  cases returns <;> simp [lineEnd, linesFrom]

/-- The lines of a text of assignments are the assignments. -/
theorem linesFrom_document (ended : Bool) {lines : List (Assignment × Bool)}
    (h : ∀ l ∈ lines, l.1.IsPlain) :
    linesFrom [] (document ended lines) = lines.map fun l => l.1.text := by
  have hsplit : ∀ a : Assignment, a.text = a.front ++ a.value.toList ++ ['"'] := fun a => by
    rw [Assignment.text, List.append_assoc]
  have hplain : ∀ l ∈ lines, '\n' ∉ l.1.front ++ l.1.value.toList := fun l hl hmem =>
    (h l hl).newline_not_mem (hsplit l.1 ▸ List.mem_append_left _ hmem)
  induction lines with
  | nil => rfl
  | cons l rest ih =>
      obtain ⟨hl, hrest⟩ := List.forall_mem_cons.mp hplain
      have hlines := ih (List.forall_mem_cons.mp h).2 hrest
      have hbreak : ∀ back, linesFrom [] (l.1.text ++ (lineEnd l.2 ++ back)) =
          l.1.text :: linesFrom [] back := fun back => by
        rw [hsplit]
        exact linesFrom_line hl l.2 back
      cases rest with
      | cons next rest => exact (hbreak _).trans (congrArg _ hlines)
      | nil =>
          cases ended with
          | true =>
              have hline := hbreak []
              rwa [List.append_nil] at hline
          | false =>
              show linesFrom [] (l.1.text ++ []) = [l.1.text]
              rw [linesFrom_append (h l List.mem_cons_self).newline_not_mem]
              simp [linesFrom, Assignment.text]

/-- A text of assignments ends with a line feed if its last line has an end. -/
theorem getLast?_document (ended : Bool) {lines : List (Assignment × Bool)} (hne : lines ≠ []) :
    (document ended lines).getLast? = some (if ended then '\n' else '"') := by
  induction lines with
  | nil => exact absurd rfl hne
  | cons l rest ih =>
      cases rest with
      | nil =>
          cases ended with
          | true =>
              show (l.1.text ++ lineEnd l.2).getLast? = some '\n'
              cases l.2 <;> simp [lineEnd]
          | false =>
              show (l.1.text ++ []).getLast? = some '"'
              simp [Assignment.text]
      | cons next rest =>
          have hlast : (document ended (next :: rest)).getLast? = _ := ih (List.cons_ne_nil _ _)
          show (l.1.text ++ (lineEnd l.2 ++ document ended (next :: rest))).getLast? = _
          rw [← List.append_assoc, List.getLast?_append, hlast]
          rfl

/-- Filling lines one by one is filling them with line feeds between them. -/
theorem filled_joined (ended : Bool) {lines : List (List Piece)} (hne : lines ≠ []) :
    (lines.mapM (filled valueOf) >>= fun texts =>
      .ok (List.intercalate ['\n'] texts ++ if ended then ['\n'] else [])) =
    filled valueOf (joined ended (lines.map (·, [.char '\n']))) := by
  induction lines with
  | nil => exact absurd rfl hne
  | cons ps rest ih =>
      rw [List.mapM_cons]
      cases rest with
      | nil =>
          show _ = filled valueOf (ps ++ if ended then [.char '\n'] else [])
          have hend : filled valueOf (if ended then [.char '\n'] else []) =
              .ok (if ended then ['\n'] else []) := by cases ended <;> rfl
          rw [filled_append, hend, List.mapM_nil]
          cases filled valueOf ps with
          | error name => rfl
          | ok text =>
              show Except.ok (List.intercalate ['\n'] [text] ++ _) = Except.ok (text ++ _)
              rw [List.intercalate_singleton]
      | cons next rest =>
          show _ = filled valueOf
            (ps ++ ([.char '\n'] ++ joined ended ((next :: rest).map (·, [.char '\n']))))
          rw [filled_append, filled_append, ← ih (List.cons_ne_nil _ _), List.mapM_cons]
          cases filled valueOf ps with
          | error name => rfl
          | ok text =>
              cases filled valueOf next with
              | error name => rfl
              | ok text' =>
                  cases rest.mapM (filled valueOf) with
                  | error name => rfl
                  | ok texts =>
                      show Except.ok (List.intercalate ['\n'] (text :: text' :: texts) ++ _) = _
                      rw [List.intercalate_cons_cons]
                      simp
                      rfl

/-- Lines are expanded one by one, by filling their settled pieces. -/
theorem mapM_expandLine {lines : List (Assignment × Bool)} {readings : List (List Piece)}
    (h : ∀ l ∈ lines, l.1.IsPlain)
    (hreads : List.Forall₂ (fun l ps => Reads l.1.value.toList ps) lines readings) :
    (lines.map fun l => l.1.text).mapM (expandLine valueOf) =
      (List.zipWith (fun l ps => l.1.pieces ps) lines (readings.map settled)).mapM
        (filled valueOf) := by
  induction hreads with
  | nil => rfl
  | @cons l ps lines readings hps _ ih =>
      obtain ⟨hl, hrest⟩ := List.forall_mem_cons.mp h
      rw [List.map_cons, List.map_cons, List.zipWith_cons_cons, List.mapM_cons, List.mapM_cons,
        ih hrest, expandLine_eq (hl.reads hps), hl.settled_pieces]

/-- A text of assignments is expanded by filling its pieces, where those of every line are
settled. -/
theorem expand_document (ended : Bool) {lines : List (Assignment × Bool)}
    {readings : List (List Piece)} (h : ∀ l ∈ lines, l.1.IsPlain)
    (hreads : List.Forall₂ (fun l ps => Reads l.1.value.toList ps) lines readings) :
    expand valueOf (document ended lines) =
      filled valueOf (piecesOf ended lines (readings.map settled)) := by
  cases lines with
  | nil =>
      cases hreads
      rfl
  | cons l rest =>
      have hne :
          List.zipWith (fun l ps => l.1.pieces ps) (l :: rest) (readings.map settled) ≠ [] := by
        cases hreads
        exact List.cons_ne_nil _ _
      rw [piecesOf, ← filled_joined ended hne, expand, linesFrom_document ended h,
        mapM_expandLine h hreads, getLast?_document ended (List.cons_ne_nil _ _)]
      refine bind_congr fun texts => ?_
      cases ended with
      | true => rfl
      | false => simp

/-- A text of assignments is expanded by filling the references in its values up to the first `#`
of each line, and fails with the name of the first of their variables that is not set.  Where no
reference stands behind a `#`, all references are filled.  Line ends become line feeds, and all else
stays as it is. -/
theorem expand_assignments (valueOf : String → Option String) (ended : Bool)
    {lines : List (Assignment × Bool)} (h : ∀ l ∈ lines, l.1.IsPlain) :
    ∃ readings, List.Forall₂ (fun l ps => Reads l.1.value.toList ps) lines readings ∧
      expand valueOf (document ended lines) =
        filled valueOf (piecesOf ended lines (readings.map settled)) ∧
      ((∀ ps ∈ readings, Clear ps) →
        expand valueOf (document ended lines) = filled valueOf (piecesOf ended lines readings)) ∧
      ∀ name, expand valueOf (document ended lines) = .error name →
        ofText valueOf (String.ofList (document ended lines)) = .error (.unsetVariable name) := by
  choose pieces hpieces using exists_reads
  have hreads : List.Forall₂ (fun l ps => Reads l.1.value.toList ps) lines
      (lines.map fun l => pieces l.1.value.toList) := by
    rw [List.forall₂_map_right_iff]
    exact List.forall₂_same.mpr fun l _ => hpieces _
  refine ⟨_, hreads, expand_document ended h hreads, fun hclear => ?_, fun name hname => ?_⟩
  · rw [expand_document ended h hreads]
    have hsettled : ∀ ps ∈ lines.map fun l => pieces l.1.value.toList, settled ps = id ps :=
      fun ps hps => settled_eq_self (hclear ps hps)
    rw [List.map_congr_left hsettled, List.map_id]
  · rw [ofText, String.toList_ofList, hname]

/-- The reference behind the `#` in the first line stays as it is, although the `#` is part of the
value.  The carriage return at the end of that line is dropped. -/
theorem expand_assignments_level :
    let valueOf : String → Option String := fun name =>
      if name = "LEVEL" then some "debug" else if name = "FORM" then some "json" else none
    let lines : List (Assignment × Bool) :=
      [(⟨"level", "$\x7bLEVEL\x7d#$\x7bNONE\x7d"⟩, true),
        (⟨"format", "$$\x7bFORM\x7d\x7d"⟩, false)]
    (∀ l ∈ lines, l.1.IsPlain) ∧
      expand valueOf (document false lines) =
        .ok "level = \"debug#$\x7bNONE\x7d\"\nformat = \"$json\x7d\"".toList ∧
      ∃ readings, List.Forall₂ (fun l ps => Reads l.1.value.toList ps) lines readings ∧
        expand valueOf (document false lines) =
          filled valueOf (piecesOf false lines (readings.map settled)) := by
  intro valueOf lines
  have hplain : ∀ l ∈ lines, l.1.IsPlain := by decide
  obtain ⟨readings, hreads, hexpand, _⟩ := expand_assignments valueOf false hplain
  exact ⟨hplain, by decide +kernel, readings, hreads, hexpand⟩

/-- A reference behind a `#` in a value is left alone, although its variable is not set. -/
theorem expand_behind_hash :
    let valueOf : String → Option String := fun _ => none
    let line : Assignment := ⟨"level", "#$\x7bORC_LEVEL\x7d"⟩
    line.IsPlain ∧ ∃ ps, Reads line.value.toList ps ∧
      filled valueOf (line.pieces ps) = .error "ORC_LEVEL" ∧
      expand valueOf (document false [(line, false)]) = .ok line.text := by
  intro valueOf line
  have htext : line.value.toList = '#' :: ((Piece.reference "ORC_LEVEL").text ++ []) := by decide
  have hreads : Reads line.value.toList [.char '#', .reference "ORC_LEVEL"] := by
    rw [htext]
    exact .char (not_opensWithReference (by decide)) (.reference (by decide) (by decide) .nil)
  exact ⟨by decide, _, hreads, by decide, by decide +kernel⟩

end Scim.Settings.Environment
