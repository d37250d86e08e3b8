import Mathlib.Tactic.SplitIfs
import Scim.Json.Reader
import Scim.Json.Writer

/-!
# Reading what was written

A value without numbers that is written without white space is read back, except that a container
around which 127 others are open is unreadable (`Written.ofText?_compact`).

Reading takes two steps, and each undoes one step of writing.  The lexer finds the lexemes of the
value (`foldlM_compact`), where an escape becomes its character again (`foldlM_escape`).  The
reader puts the value of the lexemes where it belongs (`foldlM_lexemesOf`).
-/

namespace Scim.Json

/-- A value without numbers. -/
inductive Numberless : Json → Prop where
  | null : Numberless .null
  | bool (b : Bool) : Numberless (.bool b)
  | string (s : String) : Numberless (.string s)
  | array {items : List Json} (values : ∀ v ∈ items, Numberless v) : Numberless (.array items)
  | object {members : Members} (values : ∀ m ∈ members, Numberless m.2) :
      Numberless (.object members)

theorem Numberless.item {items : List Json} (h : (Json.array items).Numberless) :
    ∀ v ∈ items, v.Numberless := by
  cases h with
  | array values => exact values

theorem Numberless.member {members : Members} (h : (Json.object members).Numberless) :
    ∀ m ∈ members, m.2.Numberless := by
  cases h with
  | object values => exact values

/-! ## The lexemes of a value -/

/-- The characters of the name of a truth value. -/
def boolWord (b : Bool) : List Char := if b then ['t', 'r', 'u', 'e'] else ['f', 'a', 'l', 's', 'e']

mutual

/-- The lexemes of a value. -/
def lexemesOf : Json → List Lexeme
  | .null => [.word ['n', 'u', 'l', 'l']]
  | .bool b => [.word (boolWord b)]
  | .number n => [.word n.text.toList]
  | .string s => [.string (some s)]
  | .array items => .openArray :: (lexemesOfItems items ++ [.closeArray])
  | .object members => .openObject :: (lexemesOfMembers members ++ [.closeObject])
termination_by structural v => v

/-- The lexemes of items with commas between them. -/
def lexemesOfItems : List Json → List Lexeme
  | [] => []
  | [v] => lexemesOf v
  | v :: rest => lexemesOf v ++ .comma :: lexemesOfItems rest
termination_by structural vs => vs

/-- The lexemes of members with commas between them. -/
def lexemesOfMembers : List (String × Json) → List Lexeme
  | [] => []
  | [(k, v)] => .string (some k) :: .colon :: lexemesOf v
  | (k, v) :: rest => .string (some k) :: .colon :: (lexemesOf v ++ .comma :: lexemesOfMembers rest)
termination_by structural ms => ms

end

namespace Lexer

variable {s : State} {ls : List Lexeme} {c : Char}

/-- The lexer has read lexemes, newest first.  The last one may be a word that can still go on. -/
def HasRead (ls : List Lexeme) (s : State) : Prop :=
  s = ⟨ls, .between⟩ ∨ ∃ word rest, ls = .word word.reverse :: rest ∧ s = ⟨rest, .word word⟩

/-- A character that does not go on with a word starts the next lexeme. -/
theorem HasRead.step (h : HasRead ls s) (hc : isWordChar c = false) : step s c = start ls c := by
  rcases h with rfl | ⟨word, rest, rfl, rfl⟩
  · rfl
  · exact if_neg (by simp [hc])

theorem HasRead.finish (h : HasRead ls s) : finish s = some ls.reverse := by
  rcases h with rfl | ⟨word, rest, rfl, rfl⟩ <;> rfl

/-- The two digits of the escape of a control character are its number. -/
theorem hexValue?_hexDigit {n : Nat} (h : n < 0x20) :
    Digits.hexValue? (hexDigit (n / 16)) = some (n / 16) ∧
      Digits.hexValue? (hexDigit (n % 16)) = some (n % 16) := by
  revert n
  decide

/-- The long escape of a control character becomes the character again. -/
theorem foldlM_unit (ls : List Lexeme) (t : String) {c : Char} (hc : c.toNat < 0x20) :
    ['\\', 'u', '0', '0', hexDigit (c.toNat / 16), hexDigit (c.toNat % 16)].foldlM Lexer.step
      ⟨ls, .string (some t)⟩ = some ⟨ls, .string (some (t.push c))⟩ := by
  obtain ⟨hhigh, hlow⟩ := hexValue?_hexDigit hc
  have hvalue : 16 * (c.toNat / 16) + c.toNat % 16 = c.toNat := Nat.div_add_mod c.toNat 16
  have hunit : unitRead (some t) none c.toNat = .string (some (t.push c)) := by
    have htrailing : ¬ (0xDC00 ≤ c.toNat ∧ c.toNat ≤ 0xDFFF) := by omega
    have hleading : ¬ (0xD800 ≤ c.toNat ∧ c.toNat ≤ 0xDBFF) := by omega
    simp [unitRead, htrailing, hleading, extended]
  calc ['\\', 'u', '0', '0', hexDigit (c.toNat / 16), hexDigit (c.toNat % 16)].foldlM Lexer.step
        ⟨ls, .string (some t)⟩
      = [hexDigit (c.toNat / 16), hexDigit (c.toNat % 16)].foldlM Lexer.step
        ⟨ls, .unit (some t) none 2 0⟩ := rfl
    _ = some ⟨ls, .string (some (t.push c))⟩ := by
        simp [Lexer.step, hhigh, hlow, hvalue, hunit]

/-- An escape becomes its character again. -/
theorem foldlM_escape (ls : List Lexeme) (t : String) (c : Char) :
    (escape c).foldlM Lexer.step ⟨ls, .string (some t)⟩ = some ⟨ls, .string (some (t.push c))⟩ := by
  -- A short escape is a closed text, so it is computed; the long one holds digits.
  unfold escape
  split_ifs with hquote hslash hnew hreturn htab hback hfeed hcontrol
  · subst hquote; rfl
  · subst hslash; rfl
  · subst hnew; rfl
  · subst hreturn; rfl
  · subst htab; rfl
  · subst hback; rfl
  · subst hfeed; rfl
  · exact foldlM_unit ls t hcontrol
  · simp [Lexer.step, stringChar, hquote, hslash, hcontrol, extended]

/-- The escapes of a text become the text. -/
theorem foldlM_escapes (ls : List Lexeme) (t : String) (cs : List Char) :
    (cs.flatMap escape).foldlM Lexer.step ⟨ls, .string (some t)⟩ =
      some ⟨ls, .string (some (t ++ String.ofList cs))⟩ := by
  induction cs generalizing t with
  | nil => simp
  | cons c rest ih =>
      have htext : t.push c ++ String.ofList rest = t ++ String.ofList (c :: rest) := by
        simp [← String.toList_inj]
      rw [List.flatMap_cons, List.foldlM_append, foldlM_escape, Option.bind_eq_bind,
        Option.bind_some, ih, htext]

/-- A quoted text is one lexeme. -/
theorem foldlM_quoted (h : HasRead ls s) (t : String) :
    (quoted t).toList.foldlM Lexer.step s = some ⟨.string (some t) :: ls, .between⟩ := by
  have hopen : Lexer.step s '"' = some ⟨ls, .string (some "")⟩ := h.step (by decide)
  rw [quoted, String.toList_ofList, List.cons_append, List.foldlM_cons, hopen,
    Option.bind_eq_bind, Option.bind_some, List.foldlM_append, foldlM_escapes]
  simp [Lexer.step, stringChar]

/-- The lexer finds these lexemes in a text, whatever it has found before. -/
def Finds (text : List Char) (found : List Lexeme) : Prop :=
  ∀ ls, ∃ s, text.foldlM Lexer.step ⟨ls, .between⟩ = some s ∧ HasRead (found.reverse ++ ls) s

namespace Finds

variable {text text' : List Char} {found found' : List Lexeme} {m : Lexeme}

theorem nil : Finds [] [] := fun ls => ⟨⟨ls, .between⟩, rfl, .inl rfl⟩

/-- A mark is a lexeme. -/
theorem mark (hc : ∀ ls, start ls c = some ⟨m :: ls, .between⟩) (h : Finds text found) :
    Finds (c :: text) (m :: found) := by
  intro ls
  obtain ⟨s, hs, hread⟩ := h (m :: ls)
  have hstep : Lexer.step ⟨ls, .between⟩ c = some ⟨m :: ls, .between⟩ := hc ls
  refine ⟨s, ?_, by simpa using hread⟩
  rw [List.foldlM_cons, hstep]
  exact hs

/-- A text that no word goes on with may follow another text. -/
theorem append (h : Finds text found) (hc : isWordChar c = false)
    (h' : Finds (c :: text') found') : Finds (text ++ c :: text') (found ++ found') := by
  intro ls
  obtain ⟨s, hs, hread⟩ := h ls
  obtain ⟨s', hs', hread'⟩ := h' (found.reverse ++ ls)
  have hstep : Lexer.step s c = Lexer.step ⟨found.reverse ++ ls, .between⟩ c := hread.step hc
  refine ⟨s', ?_, by simpa using hread'⟩
  rw [List.foldlM_append, hs, Option.bind_eq_bind, Option.bind_some, List.foldlM_cons, hstep]
  exact hs'

theorem quoted (t : String) : Finds (quoted t).toList [.string (some t)] := fun ls =>
  ⟨⟨.string (some t) :: ls, .between⟩, foldlM_quoted (.inl rfl) t, .inl rfl⟩

theorem null : Finds "null".toList [.word ['n', 'u', 'l', 'l']] := fun ls =>
  ⟨⟨ls, .word ['l', 'l', 'u', 'n']⟩, by rfl, .inr ⟨_, ls, rfl, rfl⟩⟩

theorem bool (b : Bool) : Finds (if b then "true" else "false").toList [.word (boolWord b)] := by
  intro ls
  refine ⟨⟨ls, .word (boolWord b).reverse⟩, ?_, .inr ⟨(boolWord b).reverse, ls, ?_, rfl⟩⟩
  · cases b <;> rfl
  · simp

end Finds

mutual

/-- The lexer finds the lexemes of a value where the value is written. -/
theorem finds_compact : ∀ v : Json, v.Numberless → Finds (compact v).toList (lexemesOf v)
  | .null, _ => .null
  | .bool b, _ => .bool b
  | .number n, h => nomatch h
  | .string s, _ => .quoted s
  | .array items, h => by
      have hitems := finds_compactItems items h.item
      have hclose : Finds [']'] [.closeArray] := .mark (fun _ => rfl) .nil
      simpa [compact, lexemesOf] using
        Finds.mark (c := '[') (m := .openArray) (fun _ => rfl) (hitems.append (by decide) hclose)
  | .object members, h => by
      have hmembers := finds_compactMembers members h.member
      have hclose : Finds ['\x7d'] [.closeObject] := .mark (fun _ => rfl) .nil
      simpa [compact, lexemesOf] using
        Finds.mark (c := '\x7b') (m := .openObject) (fun _ => rfl)
          (hmembers.append (by decide) hclose)
termination_by structural v => v

/-- The lexer finds the lexemes of items where they are written. -/
theorem finds_compactItems : ∀ items : List Json, (∀ v ∈ items, v.Numberless) →
    Finds (compactItems items).toList (lexemesOfItems items)
  | [], _ => .nil
  | [v], h => finds_compact v (h v List.mem_cons_self)
  | v :: w :: rest, h => by
      have hv := finds_compact v (h v List.mem_cons_self)
      have hrest := finds_compactItems (w :: rest) fun u hu => h u (List.mem_cons_of_mem _ hu)
      simpa [compactItems, lexemesOfItems] using
        hv.append (by decide) (Finds.mark (c := ',') (m := .comma) (fun _ => rfl) hrest)
termination_by structural items => items

/-- The lexer finds the lexemes of members where they are written. -/
theorem finds_compactMembers : ∀ members : List (String × Json),
    (∀ m ∈ members, m.2.Numberless) →
    Finds (compactMembers members).toList (lexemesOfMembers members)
  | [], _ => .nil
  | [(k, v)], h => by
      have hv := finds_compact v (h (k, v) List.mem_cons_self)
      simpa [compactMembers, lexemesOfMembers] using
        (Finds.quoted k).append (by decide)
          (Finds.mark (c := ':') (m := .colon) (fun _ => rfl) hv)
  | (k, v) :: m :: rest, h => by
      have hv := finds_compact v (h (k, v) List.mem_cons_self)
      have hrest := finds_compactMembers (m :: rest) fun n hn => h n (List.mem_cons_of_mem _ hn)
      have hvalue := hv.append (by decide)
        (Finds.mark (c := ',') (m := .comma) (fun _ => rfl) hrest)
      simpa [compactMembers, lexemesOfMembers] using
        (Finds.quoted k).append (by decide)
          (Finds.mark (c := ':') (m := .colon) (fun _ => rfl) hvalue)
termination_by structural members => members

end

end Lexer

theorem lexemes?_compact {v : Json} (h : v.Numberless) :
    lexemes? (compact v).toList = some (lexemesOf v) := by
  obtain ⟨s, hs, hread⟩ := Lexer.finds_compact v h []
  have hfold : (compact v).toList.foldlM Lexer.step {} = some s := hs
  rw [lexemes?, hfold, Option.bind_eq_bind, Option.bind_some, hread.finish]
  simp

/-! ## The value of the lexemes -/

mutual

/-- What is read of a value inside other containers. -/
def readAt (depth : Nat) : Json → Written
  | .null => .null
  | .bool b => .bool b
  | .number n => .number n
  | .string s => .string s
  | .array items =>
      if depth < Reader.maxDepth then .array (readItems (depth + 1) items) else .unreadable
  | .object members =>
      if depth < Reader.maxDepth then .object (readMembers (depth + 1) members) else .unreadable
termination_by structural v => v

/-- What is read of items. -/
def readItems (depth : Nat) : List Json → List Written
  | [] => []
  | v :: rest => readAt depth v :: readItems depth rest
termination_by structural items => items

/-- What is read of members. -/
def readMembers (depth : Nat) : List (String × Json) → List (String × Written)
  | [] => []
  | (k, v) :: rest => (k, readAt depth v) :: readMembers depth rest
termination_by structural members => members

end

section

variable {depth : Nat}

theorem readAt_array (h : depth < Reader.maxDepth) (items : List Json) :
    readAt depth (.array items) = .array (readItems (depth + 1) items) := if_pos h

theorem readAt_array_of_not (h : ¬ depth < Reader.maxDepth) (items : List Json) :
    readAt depth (.array items) = .unreadable := if_neg h

theorem readAt_object (h : depth < Reader.maxDepth) (members : Members) :
    readAt depth (.object members) = .object (readMembers (depth + 1) members) := if_pos h

theorem readAt_object_of_not (h : ¬ depth < Reader.maxDepth) (members : Members) :
    readAt depth (.object members) = .unreadable := if_neg h

end

namespace Reader

variable {due : Due} {frames outer : List Frame}

/-- A value may come. -/
def Due.AwaitsValue (due : Due) : Prop := due = .value ∨ due = .firstItem

/-- A key may come. -/
def Due.AwaitsKey (due : Due) : Prop := due = .key ∨ due = .firstKey

theorem step_word (h : due.AwaitsValue) {word : List Char} {v : Written}
    (hword : wordValue? word = some v) :
    step ⟨frames, due⟩ (.word word) = some (put v frames) := by
  have hbegin : beginValue ⟨frames, due⟩ (.word word) = some (put v frames) := by
    rw [beginValue, hword]
    rfl
  rcases h with rfl | rfl <;> exact hbegin

theorem step_string (h : due.AwaitsValue) (t : String) :
    step ⟨frames, due⟩ (.string (some t)) = some (put (.string t) frames) := by
  rcases h with rfl | rfl <;> rfl

theorem step_openArray (h : due.AwaitsValue) :
    step ⟨frames, due⟩ .openArray = some ⟨.array [] :: frames, .firstItem⟩ := by
  rcases h with rfl | rfl <;> rfl

theorem step_openObject (h : due.AwaitsValue) :
    step ⟨frames, due⟩ .openObject = some ⟨.object (some []) none :: frames, .firstKey⟩ := by
  rcases h with rfl | rfl <;> rfl

theorem step_key (h : due.AwaitsKey) (members : Option (List (String × Written))) (k : String) :
    step ⟨.object members none :: outer, due⟩ (.string (some k)) =
      some ⟨.object members (some k) :: outer, .colon⟩ := by
  rcases h with rfl | rfl <;> rfl

theorem step_closeArray {read : List Written} (h : due = .firstItem ∨ due = .next) :
    step ⟨.array read :: outer, due⟩ .closeArray =
      some (putContainer (.array read.reverse) outer) := by
  rcases h with rfl | rfl <;> rfl

theorem step_closeObject {read : List (String × Written)} (h : due = .firstKey ∨ due = .next) :
    step ⟨.object (some read) none :: outer, due⟩ .closeObject =
      some (putContainer (.object read.reverse) outer) := by
  rcases h with rfl | rfl <;> rfl

mutual

/-- The reader makes of the lexemes of a value what is read of it. -/
theorem foldlM_lexemesOf : ∀ (v : Json) (frames : List Frame) (due : Due), v.Numberless →
    due.AwaitsValue →
    (lexemesOf v).foldlM step ⟨frames, due⟩ = some (put (readAt frames.length v) frames)
  | .null, _, _, _, hdue => by
      rw [lexemesOf, List.foldlM_cons, step_word hdue rfl]
      rfl
  | .bool b, _, _, _, hdue => by
      have hword : wordValue? (boolWord b) = some (.bool b) := by cases b <;> rfl
      rw [lexemesOf, List.foldlM_cons, step_word hdue hword]
      rfl
  | .number n, _, _, h, _ => nomatch h
  | .string s, _, _, _, hdue => by
      rw [lexemesOf, List.foldlM_cons, step_string hdue]
      rfl
  | .array [], _, _, _, hdue => by
      -- The end of an empty array comes where an item may come, and not where a comma may.
      rw [lexemesOf, List.foldlM_cons, step_openArray hdue]
      exact step_closeArray (.inl rfl)
  | .array (v :: rest), frames, _, h, hdue => by
      have hitems := foldlM_lexemesOfItems (v :: rest) [] frames .firstItem (List.cons_ne_nil _ _)
        h.item (.inr rfl)
      rw [lexemesOf, List.foldlM_cons, step_openArray hdue]
      simp [hitems, step_closeArray, putContainer, readAt]
  | .object [], _, _, _, hdue => by
      rw [lexemesOf, List.foldlM_cons, step_openObject hdue]
      exact step_closeObject (.inl rfl)
  | .object (m :: rest), frames, _, h, hdue => by
      have hmembers := foldlM_lexemesOfMembers (m :: rest) [] frames .firstKey
        (List.cons_ne_nil _ _) h.member (.inr rfl)
      rw [lexemesOf, List.foldlM_cons, step_openObject hdue]
      simp [hmembers, step_closeObject, putContainer, readAt]
termination_by structural v => v

/-- The reader adds items to the array that it is in. -/
theorem foldlM_lexemesOfItems : ∀ (items : List Json) (read : List Written)
    (outer : List Frame) (due : Due), items ≠ [] → (∀ v ∈ items, v.Numberless) → due.AwaitsValue →
    (lexemesOfItems items).foldlM step ⟨.array read :: outer, due⟩ =
      some ⟨.array ((readItems (outer.length + 1) items).reverse ++ read) :: outer, .next⟩
  | [], _, _, _, hne, _, _ => absurd rfl hne
  | [v], read, outer, due, _, h, hdue =>
      foldlM_lexemesOf v (.array read :: outer) due (h v List.mem_cons_self) hdue
  | v :: w :: rest, read, outer, due, _, h, hdue => by
      have hv := foldlM_lexemesOf v (.array read :: outer) due (h v List.mem_cons_self) hdue
      have hrest := foldlM_lexemesOfItems (w :: rest) (readAt (outer.length + 1) v :: read) outer
        .value (List.cons_ne_nil _ _) (fun u hu => h u (List.mem_cons_of_mem _ hu)) (.inl rfl)
      have hcomma : step (put (readAt (outer.length + 1) v) (.array read :: outer)) .comma =
          some ⟨.array (readAt (outer.length + 1) v :: read) :: outer, .value⟩ := rfl
      rw [lexemesOfItems, List.foldlM_append, hv]
      · simp [hcomma, hrest, readItems]
      · exact List.cons_ne_nil _ _
termination_by structural items => items

/-- The reader adds members to the object that it is in. -/
theorem foldlM_lexemesOfMembers : ∀ (members : List (String × Json))
    (read : List (String × Written)) (outer : List Frame) (due : Due), members ≠ [] →
    (∀ m ∈ members, m.2.Numberless) → due.AwaitsKey →
    (lexemesOfMembers members).foldlM step ⟨.object (some read) none :: outer, due⟩ =
      some ⟨.object (some ((readMembers (outer.length + 1) members).reverse ++ read)) none ::
        outer, .next⟩
  | [], _, _, _, hne, _, _ => absurd rfl hne
  | [(k, v)], read, outer, due, _, h, hdue => by
      have hv := foldlM_lexemesOf v (.object (some read) (some k) :: outer) .value
        (h (k, v) List.mem_cons_self) (.inl rfl)
      rw [lexemesOfMembers, List.foldlM_cons, step_key hdue]
      exact hv
  | (k, v) :: m :: rest, read, outer, due, _, h, hdue => by
      have hv := foldlM_lexemesOf v (.object (some read) (some k) :: outer) .value
        (h (k, v) List.mem_cons_self) (.inl rfl)
      have hrest := foldlM_lexemesOfMembers (m :: rest)
        ((k, readAt (outer.length + 1) v) :: read) outer .key (List.cons_ne_nil _ _)
        (fun n hn => h n (List.mem_cons_of_mem _ hn)) (.inl rfl)
      have hcomma :
          step (put (readAt (outer.length + 1) v) (.object (some read) (some k) :: outer)) .comma =
            some ⟨.object (some ((k, readAt (outer.length + 1) v) :: read)) none :: outer, .key⟩ :=
        rfl
      have hcolon : step ⟨.object (some read) (some k) :: outer, .colon⟩ .colon =
          some ⟨.object (some read) (some k) :: outer, .value⟩ := rfl
      rw [lexemesOfMembers, List.foldlM_cons, step_key hdue]
      · simp [hcolon, hv, hcomma, hrest, readMembers]
      · exact List.cons_ne_nil _ _
termination_by structural members => members

end

end Reader

/-- A value without numbers is read back, except for the containers that are nested too deep. -/
theorem Written.ofText?_compact {v : Json} (h : v.Numberless) :
    Written.ofText? (compact v) = some (readAt 0 v) := by
  have hfold : (lexemesOf v).foldlM Reader.step {} = some ⟨[], .nothing (readAt 0 v)⟩ :=
    Reader.foldlM_lexemesOf v [] .value h (.inl rfl)
  rw [Written.ofText?, lexemes?_compact h]
  simp [hfold]

end Scim.Json
