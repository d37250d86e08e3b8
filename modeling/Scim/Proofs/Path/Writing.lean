import Scim.Proofs.Filter.Assembly
import Scim.Proofs.Path.Lookup

/-!
# Writing a path

A path is written by its names with dots between them and a filter in brackets behind at most one of
them.  Compiling gives back what has been written (`compile_written`), also behind a qualifier if no
name has a colon.

The path is cut by quotes and brackets of its own, without scanning the filter.  What ties the two
together is that both follow the quotes in the same way (`Scanner.Moves.quoting`).  So a filter that
is read leaves its quotes closed, and a bracket, dot or colon between them cuts nothing.

A qualifier starts with `urn:` in any case.  So a name that starts with `URN:` loses what is before
its last colon (`not_compile_written`).
-/

namespace Scim

/-! ## Quotes of a filter -/

namespace Filter

open Scanner (Quoting)

namespace Scanner

variable {s s' : Scanner} {position : Nat} {c : Char} {text : List Char}

/-- The scanner is between quotes as its characters say. -/
theorem Moves.quoting (h : Moves s c s') : s'.quoting = s.quoting.after c := by
  cases h with
  | push => rfl
  | blank hout hblank =>
      have hquote : c ≠ '"' := by
        rintro rfl
        exact absurd hblank (by decide)
      rw [quoting_flush, hout, Quoting.after, if_neg hquote]
  | openBracket hout => exact quoting_flush.trans (hout ▸ rfl)
  | closeBracket hout => exact quoting_flush.trans (hout ▸ rfl)
  | openGroup hout => simp [Scanner.openGroup, hout, Quoting.after]
  | closeGroup hout => simp [hout, Quoting.after]

theorem quoting_of_run (h : s.run position text = .ok s') :
    s'.quoting = text.foldl Quoting.after s.quoting := by
  induction text generalizing s position with
  | nil =>
      cases h
      rfl
  | cons c rest ih =>
      obtain ⟨next, hstep, hrun⟩ := ok_of_bind h
      obtain ⟨_, hmoves⟩ := moves_of_step hstep
      rw [ih hrun, hmoves.quoting]
      rfl

/-- Reading on from a quoting, no bracket stands outside of quotes. -/
def FreeOfBrackets : Quoting → List Char → Prop
  | _, [] => True
  | q, c :: rest => (q = .outside → c ≠ '[' ∧ c ≠ ']') ∧ FreeOfBrackets (q.after c) rest

instance decidableFreeOfBrackets : ∀ (q : Quoting) (text : List Char),
    Decidable (FreeOfBrackets q text)
  | _, [] => inferInstanceAs (Decidable True)
  | q, c :: rest =>
      have := decidableFreeOfBrackets (q.after c) rest
      inferInstanceAs (Decidable ((q = .outside → c ≠ '[' ∧ c ≠ ']') ∧
        FreeOfBrackets (q.after c) rest))

theorem FreeOfBrackets.unbracketed {q : Quoting} (h : FreeOfBrackets q text)
    (hclosed : text.foldl Quoting.after q = .outside) : Unbracketed q text := by
  induction text generalizing q with
  | nil => exact hclosed
  | cons c rest ih => exact ⟨h.1, ih h.2 hclosed⟩

end Scanner

/-- A text that is read as a filter leaves its quotes closed. -/
theorem closed_of_read {limit : Nat} {text : String} {tree : Tree}
    (h : read limit text = .ok tree) : text.toList.foldl Quoting.after .outside = .outside := by
  obtain ⟨ts, hts, _⟩ := read_cases h
  obtain ⟨s, hrun, hfinish⟩ := ok_of_bind hts
  exact (Scanner.quoting_of_run hrun).symm.trans (Scanner.finish_cases hfinish).1

end Filter

namespace Path

open Scim.Filter (Tree)
open Scim.Filter.Scanner (FreeOfBrackets)

/-! ## Qualifiers -/

section

variable {front back : List Char}

/-- A qualifier has no white space at its start. -/
theorem trimStart_of_isQualified (h : isQualified front = true) :
    Text.trimStart front = front ∧ front ≠ [] := by
  rw [isQualified_iff] at h
  cases front with
  | nil => cases h
  | cons c rest =>
      have hlower : c.toLower = 'u' := by simpa using congrArg List.head? h
      have hblank : Text.isBlank c = false := by
        rw [← Text.isBlank_toLower, hlower]
        rfl
      refine ⟨?_, List.cons_ne_nil _ _⟩
      rw [Text.trimStart, List.dropWhile_cons, hblank, if_neg Bool.false_ne_true]

theorem isQualified_append_right (h : isQualified front = true) :
    isQualified (front ++ back) = true := by
  rw [isQualified_iff] at h ⊢
  have hlength := congrArg List.length h
  rw [List.map_append, List.take_append_of_le_length, h]
  simp at hlength ⊢
  omega

theorem mem_takeWhile_append {p : Char → Bool} {c : Char}
    (h : c ∈ (front ++ back).takeWhile p) : c ∈ front ∨ c ∈ back.takeWhile p := by
  induction front with
  | nil => exact .inr h
  | cons d rest ih =>
      rw [List.cons_append, List.takeWhile_cons] at h
      split at h
      case isTrue =>
          rcases List.mem_cons.mp h with rfl | h
          · exact .inl List.mem_cons_self
          · exact (ih h).imp_left (List.mem_cons_of_mem d)
      case isFalse => cases h

/-- A qualifier that ends at a colon is dropped, if there is no other colon up to a bracket. -/
theorem unqualified_append (h : isQualified front = true) (hlast : front.getLast? = some ':')
    (hbracket : '[' ∉ front) (hcolon : ':' ∉ back.takeWhile (· != '[')) :
    unqualified (front ++ back) = back := by
  have hplain : ∀ c ∈ front, (c != '[') = true := fun c hc =>
    bne_iff_ne.mpr fun heq => hbracket (heq ▸ hc)
  obtain ⟨init, rfl⟩ := List.getLast?_eq_some_iff.mp hlast
  rw [unqualified, isQualified_append_right h, if_pos rfl, List.takeWhile_append_of_pos hplain,
    List.dropWhile_append_of_pos hplain, List.append_assoc, List.singleton_append,
    afterLastColon_eq hcolon, List.takeWhile_append_dropWhile]

end

/-! ## Written paths -/

/-- A name of a path, with the text and the tree of the filter behind it if there is one. -/
structure Part where
  name : String
  filter : Option (String × Tree) := none

namespace Part

/-- The part as it is written. -/
def text (p : Part) : String :=
  match p.filter with
  | none => p.name
  | some (text, _) => p.name ++ "[" ++ text ++ "]"

/-- The steps that the part stands for. -/
def steps (p : Part) : List Step :=
  match p.filter with
  | none => [.name p.name]
  | some (_, tree) => [.name p.name, .filter tree]

/-- The name has no character that means something in a path and no white space around it, and the
filter is read and has no bracket outside of quotes. -/
structure Valid (limit : Nat) (p : Part) : Prop where
  nonempty : p.name ≠ ""
  trimmed : Text.trim p.name.toList = p.name.toList
  chars : ∀ c ∈ p.name.toList, c ∉ ['.', '[', ']', '"']
  filter : ∀ text tree, p.filter = some (text, tree) →
    FreeOfBrackets .outside text.toList ∧ Filter.read limit text = .ok tree

end Part

/-- The path of some parts as it is written. -/
def written (parts : List Part) : String := ".".intercalate (parts.map Part.text)

section

variable {limit : Nat} {path : String} {p : Part} {parts : List Part}

namespace Part.Valid

theorem label (h : p.Valid limit) : IsLabel p.name.toList := by
  refine ⟨fun hnil => h.nonempty (String.toList_eq_nil_iff.mp hnil), h.trimmed, ?_, ?_⟩
  · rw [segmentsFrom_plain_all h.chars, List.append_nil, List.reverse_reverse, h.trimmed]
  · have hbracket : '[' ∉ p.name.toList := fun hmem => h.chars _ hmem (by decide)
    rw [List.contains_eq_mem, decide_eq_false hbracket]

/-- A part is trimmed and one segment. -/
theorem segment (h : p.Valid limit) :
    p.text.toList ≠ [] ∧ Text.trim p.text.toList = p.text.toList ∧
      segmentsFrom .outside false [] p.text.toList = .ok [p.text.toList] := by
  have hlabel := h.label
  obtain ⟨name, _ | ⟨text, tree⟩⟩ := p
  · exact ⟨hlabel.nonempty, hlabel.trimmed, hlabel.segment⟩
  · obtain ⟨hfree, hread⟩ := h.filter text tree rfl
    rw [Part.text]
    dsimp only
    rw [toList_bracket]
    exact ⟨by simp, hlabel.trim_bracket _,
      hlabel.segment_bracket (hfree.unbracketed (Filter.closed_of_read hread))⟩

end Part.Valid

/-- The segments of written parts have the steps of the parts. -/
theorem stepsFrom_written {used : Bool} (h : ∀ p ∈ parts, p.Valid limit)
    (hone : (parts.filter fun p => p.filter.isSome).length + used.toNat ≤ 1) :
    stepsFrom path limit used (parts.map fun p => p.text.toList) =
      .ok (parts.flatMap Part.steps) := by
  induction parts generalizing used with
  | nil => rfl
  | cons p rest ih =>
      obtain ⟨hp, hrest⟩ := List.forall_mem_cons.mp h
      obtain ⟨name, _ | ⟨text, tree⟩⟩ := p
      · have hlabel : IsLabel name.toList := hp.label
        have htext : (⟨name, none⟩ : Part).text = name := rfl
        have hone' : (rest.filter fun p => p.filter.isSome).length + used.toNat ≤ 1 := by
          simpa using hone
        rw [List.map_cons, htext, stepsFrom, hlabel.noBracket, if_neg Bool.false_ne_true,
          ih hrest hone', String.ofList_toList]
        rfl
      · have hlabel : IsLabel name.toList := hp.label
        have htext : (⟨name, some (text, tree)⟩ : Part).text = name ++ "[" ++ text ++ "]" := rfl
        obtain ⟨_, hread⟩ := hp.filter text tree rfl
        cases used with
        | true => simp at hone
        | false =>
            have hone' : (rest.filter fun p => p.filter.isSome).length + true.toNat ≤ 1 := by
              simpa using hone
            have hbracket :
                (name.toList ++ '[' :: (text.toList ++ [']'])).contains '[' = true := by simp
            rw [List.map_cons, htext, toList_bracket, stepsFrom, hbracket, if_pos rfl,
              if_neg Bool.false_ne_true, hlabel.filteredSteps, hread, ok_bind, ih hrest hone']
            rfl

/-- No qualifier starts with a part if none starts with its name. -/
theorem isQualified_text (h : isQualified p.name.toList = false) :
    isQualified p.text.toList = false := by
  obtain ⟨name, _ | ⟨text, tree⟩⟩ := p
  · exact h
  · have htext : (⟨name, some (text, tree)⟩ : Part).text = name ++ "[" ++ text ++ "]" := rfl
    rw [htext, toList_bracket]
    exact isQualified_append h (by decide)

theorem toList_written_cons (p : Part) (rest : List Part) :
    (written (p :: rest)).toList = p.text.toList ∨
      (written (p :: rest)).toList = p.text.toList ++ '.' :: (written rest).toList := by
  cases rest with
  | nil => exact .inl (congrArg String.toList String.intercalate_singleton)
  | cons next rest => exact .inr (toList_intercalate_cons _ _ _)

/-- What is before the first bracket of a part and what follows is in the name or follows. -/
theorem mem_takeWhile_text {c : Char} {back : List Char}
    (h : c ∈ (p.text.toList ++ back).takeWhile (· != '[')) :
    c ∈ p.name.toList ∨ c ∈ back.takeWhile (· != '[') := by
  obtain ⟨name, _ | ⟨text, tree⟩⟩ := p
  · exact mem_takeWhile_append h
  · have htext : (⟨name, some (text, tree)⟩ : Part).text = name ++ "[" ++ text ++ "]" := rfl
    rw [htext, toList_bracket, List.append_assoc] at h
    exact .inl ((mem_takeWhile_append h).resolve_right List.not_mem_nil)

/-- Up to its first bracket a written path has characters of names only, and dots. -/
theorem mem_takeWhile_written {c : Char} (h : c ∈ (written parts).toList.takeWhile (· != '[')) :
    c = '.' ∨ ∃ p ∈ parts, c ∈ p.name.toList := by
  induction parts with
  | nil => simp [written] at h
  | cons p rest ih =>
      rcases toList_written_cons p rest with hlist | hlist
      · rw [hlist, ← List.append_nil p.text.toList] at h
        exact .inr ⟨p, List.mem_cons_self,
          (mem_takeWhile_text h).resolve_right List.not_mem_nil⟩
      · rw [hlist] at h
        rcases mem_takeWhile_text h with h | h
        · exact .inr ⟨p, List.mem_cons_self, h⟩
        · rcases List.mem_cons.mp h with h | h
          · exact .inl h
          · exact (ih h).imp_right fun ⟨q, hq, hc⟩ => ⟨q, List.mem_cons_of_mem p hq, hc⟩

/-- Compiling a written path gives the steps of its parts. -/
theorem compile_written (hne : parts ≠ []) (hvalid : ∀ p ∈ parts, p.Valid limit)
    (hone : (parts.filter fun p => p.filter.isSome).length ≤ 1) :
    ((∀ p, parts.head? = some p → isQualified p.name.toList = false) →
      compile limit (written parts) = .ok (parts.flatMap Part.steps)) ∧
    ∀ qualifier : String, isQualified qualifier.toList = true →
      qualifier.toList.getLast? = some ':' → '[' ∉ qualifier.toList →
      (∀ p ∈ parts, ':' ∉ p.name.toList) →
      compile limit (qualifier ++ written parts) = .ok (parts.flatMap Part.steps) := by
  have htexts : ∀ n ∈ parts.map Part.text, n.toList ≠ [] ∧ Text.trim n.toList = n.toList := by
    intro n hn
    obtain ⟨p, hp, rfl⟩ := List.mem_map.mp hn
    exact ⟨(hvalid p hp).segment.1, (hvalid p hp).segment.2.1⟩
  have hne' : parts.map Part.text ≠ [] := by simpa using hne
  obtain ⟨hnonempty, htrim⟩ : (written parts).toList ≠ [] ∧
      Text.trim (written parts).toList = (written parts).toList := trim_joined htexts hne'
  have hsegments : segmentsFrom .outside false [] (written parts).toList =
      .ok (parts.map fun p => p.text.toList) := by
    rw [written, segmentsFrom_dotted (fun n hn => ?_) hne', List.map_map]
    · rfl
    · obtain ⟨p, hp, rfl⟩ := List.mem_map.mp hn
      exact (hvalid p hp).segment.2.2
  have hfull : (parts.map fun p => p.text.toList).any List.isEmpty = false := by
    rw [List.any_eq_false]
    intro s hs
    obtain ⟨p, hp, rfl⟩ := List.mem_map.mp hs
    simp [(hvalid p hp).segment.1]
  have hsteps : ∀ path, stepsFrom path limit false (parts.map fun p => p.text.toList) =
      .ok (parts.flatMap Part.steps) := fun path => stepsFrom_written hvalid (by simpa using hone)
  constructor
  · intro hfirst
    obtain ⟨p, rest, rfl⟩ := List.exists_cons_of_ne_nil hne
    have hplain : isQualified (written (p :: rest)).toList = false :=
      isQualified_joined (isQualified_text (hfirst p rfl)) (rest.map Part.text)
    rw [compile_eq hnonempty htrim hplain hsegments hfull, hsteps]
  · intro qualifier hqualified hlast hbracket hcolon
    have hno : ':' ∉ (written parts).toList.takeWhile (· != '[') := by
      intro hmem
      rcases mem_takeWhile_written hmem with hdot | ⟨p, hp, hname⟩
      · cases hdot
      · exact hcolon p hp hname
    obtain ⟨hstart, hqne⟩ := trimStart_of_isQualified hqualified
    have hlist : (qualifier ++ written parts).toList =
        qualifier.toList ++ (written parts).toList := String.toList_append
    have htrim' := Text.trim_append hstart hqne (Text.trim_eq_self_iff.mp htrim).2 hnonempty
    rw [compile_of_segments (hlist ▸ htrim')
      (hlist ▸ unqualified_append hqualified hlast hbracket hno) hnonempty hsegments hfull, hsteps]

/-- A name that starts with `URN:` is taken for a qualifier in front of a name. -/
theorem not_compile_written : ¬ ∀ (limit : Nat) (parts : List Part), parts ≠ [] →
    (∀ p ∈ parts, p.Valid limit) → (parts.filter fun p => p.filter.isSome).length ≤ 1 →
    (∀ p, parts.head? = some p → ¬ "urn:".toList <+: p.name.toList) →
    compile limit (written parts) = .ok (parts.flatMap Part.steps) := by
  intro h
  have hvalid : ∀ p ∈ [(⟨"URN:x", none⟩ : Part)], p.Valid 0 := by
    intro p hp
    obtain rfl := List.mem_singleton.mp hp
    exact ⟨by decide, rfl, by simp, nofun⟩
  have hfirst : ∀ p, [(⟨"URN:x", none⟩ : Part)].head? = some p →
      ¬ "urn:".toList <+: p.name.toList := by
    intro p hp
    cases hp
    decide
  have hcompile := h 0 [⟨"URN:x", none⟩] (List.cons_ne_nil _ _) hvalid (by decide) hfirst
  have hfound : compile 0 (written [⟨"URN:x", none⟩]) = .ok [.name "x"] := rfl
  rw [hfound] at hcompile
  simp [Part.steps] at hcompile

/-- A filter has a dot, brackets, a colon and a quote in its string, and a qualifier has a quote and
a bracket. -/
theorem compile_written_emails :
    let tree : Tree := .node (.ofOperator "eq" .eq) (.leaf (.path "type"))
      (.leaf ⟨"\"a.]:\\\"[\"", .constant, .constant (.string "a.]:\"[")⟩)
    let parts : List Part := [⟨"my name", none⟩,
      ⟨"emails", some (" type eq \"a.]:\\\"[\" ", tree)⟩, ⟨"value", none⟩]
    written parts = "my name.emails[ type eq \"a.]:\\\"[\" ].value" ∧
      (∀ p ∈ parts, p.Valid 40) ∧
      compile 40 (written parts) =
        .ok [.name "my name", .name "emails", .filter tree, .name "value"] ∧
      compile 40 ("uRn:a\"]:" ++ written parts) =
        .ok [.name "my name", .name "emails", .filter tree, .name "value"] := by
  intro tree parts
  have hread : Filter.read 40 " type eq \"a.]:\\\"[\" " = .ok tree := rfl
  have hvalid : ∀ p ∈ parts, p.Valid 40 := by
    intro p hp
    simp only [parts, List.mem_cons, List.not_mem_nil, or_false] at hp
    rcases hp with rfl | rfl | rfl
    · exact ⟨by decide, rfl, by simp, nofun⟩
    · have htrim : Text.trim "emails".toList = "emails".toList := rfl
      refine ⟨by decide, htrim, by simp, fun text tree' h => ?_⟩
      cases h
      exact ⟨by decide, hread⟩
    · exact ⟨by decide, rfl, by simp, nofun⟩
  have hcolon : ∀ p ∈ parts, ':' ∉ p.name.toList := by
    intro p hp
    simp only [parts, List.mem_cons, List.not_mem_nil, or_false] at hp
    rcases hp with rfl | rfl | rfl <;> decide
  obtain ⟨hplain, hqualified⟩ := compile_written (List.cons_ne_nil _ _) hvalid (by decide)
  refine ⟨rfl, hvalid, hplain fun p hp => ?_, hqualified "uRn:a\"]:" rfl rfl (by decide) hcolon⟩
  cases hp
  rfl

end

end Path

end Scim
