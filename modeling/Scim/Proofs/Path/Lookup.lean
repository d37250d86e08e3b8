import Scim.Proofs.Path.Names
import Scim.Proofs.Schema.Index

/-!
# The two look-ups of an attribute

A schema looks a path up in its index.  A filter or a change compiles the path and walks down the
attributes, name by name.

Both find the attribute that a text spells, whatever its case, once something in front of it is
dropped (`Schema.attribute?_eq_some_iff`, `Schema.walk_eq_some_iff`).  For the walk that is so
because names without dots can be read off the text that joins them.  So the two differ only in what
they drop.  The index drops the identifier of its schema.  The walk drops whatever is before the
last colon of a path that starts with `urn:`.

Hence they agree on paths without a qualifier and on those behind the identifier of the schema.
Behind any other qualifier the index finds nothing, and the walk finds what the index finds under
the rest of the path (`Schema.walk_agrees_with_index`).
-/

namespace Scim

open Schema (exists_of_follow_cons follow_cons_of_some namesAlong_cons_of_some)

/-! ## Names joined by dots -/

namespace Text

/-- Names that are alike one by one are alike when joined. -/
theorem alike_intercalate {names names' : List String}
    (h : names.map folded = names'.map folded) :
    alike (".".intercalate names) (".".intercalate names') = true := by
  have hlowered : ∀ ns : List String, ns.map lowered = (ns.map folded).map String.ofList := by
    intro ns
    rw [List.map_map]
    exact List.map_congr_left fun n _ => by simp [← toList_lowered]
  rw [alike_iff_lowered, lowered_intercalate, lowered_intercalate, hlowered, hlowered, h]

/-- What is in names joined by dots is a dot or is in one of them. -/
theorem mem_intercalate {names : List String} {c : Char}
    (h : c ∈ (".".intercalate names).toList) : c = '.' ∨ ∃ n ∈ names, c ∈ n.toList := by
  induction names with
  | nil => simp at h
  | cons name rest ih =>
      cases rest with
      | nil =>
          rw [String.intercalate_singleton] at h
          exact .inr ⟨name, List.mem_cons_self, h⟩
      | cons next rest =>
          rw [Path.toList_intercalate_cons] at h
          rcases List.mem_append.mp h with h | h
          · exact .inr ⟨name, List.mem_cons_self, h⟩
          rcases List.mem_cons.mp h with h | h
          · exact .inl h
          · exact (ih h).imp_right fun ⟨n, hn, hc⟩ => ⟨n, List.mem_cons_of_mem _ hn, hc⟩

end Text

/-! ## Names of attributes -/

namespace Attribute

mutual

/-- The names of all attributes below an attribute. -/
def namesBelow : Attribute → List String
  | ⟨_, subs⟩ => namesAmong subs
termination_by structural a => a

/-- The names of attributes and of all those below them. -/
def namesAmong : List Attribute → List String
  | [] => []
  | a :: rest => a.name :: a.namesBelow ++ namesAmong rest
termination_by structural as => as

end

variable {a s : Attribute} {chain : List Nat} {name : String}

theorem namesBelow_eq (a : Attribute) : a.namesBelow = namesAmong a.subAttributes := by
  obtain ⟨traits, subs⟩ := a
  rw [namesBelow]

/-- The names among attributes are those of each and those below it. -/
theorem mem_namesAmong {as : List Attribute} (hs : s ∈ as)
    (h : name = s.name ∨ name ∈ s.namesBelow) : name ∈ namesAmong as := by
  induction as with
  | nil => cases hs
  | cons first rest ih =>
      rw [namesAmong]
      rcases List.mem_cons.mp hs with rfl | hs
      · refine List.mem_append_left _ ?_
        rcases h with rfl | h
        · exact List.mem_cons_self
        · exact List.mem_cons_of_mem _ h
      · exact List.mem_append_right _ (ih hs)

/-- A chain of positions passes names of attributes. -/
theorem namesAlong_subset : a.namesAlong chain ⊆ a.namesBelow := by
  induction chain generalizing a with
  | nil => exact List.nil_subset _
  | cons position rest ih =>
      cases hs : a.subAttributes[position]? with
      | none =>
          rw [namesAlong, hs]
          exact List.nil_subset _
      | some s =>
          have hmem := List.mem_of_getElem? hs
          rw [namesAlong_cons_of_some hs, namesBelow_eq]
          exact List.cons_subset.mpr ⟨mem_namesAmong hmem (.inl rfl),
            fun n hn => mem_namesAmong hmem (.inr (ih hn))⟩

end Attribute

/-! ## Paths without brackets, quotes and white space -/

namespace Path

variable {a b : Attribute} {names : List String} {limit : Nat} {path text : String}
  {front rest : List Char}

/-- A path without brackets, quotes and white space. -/
def IsBare (path : String) : Prop :=
  ∀ c ∈ path.toList, Text.isBlank c = false ∧ c ∉ ['[', ']', '"']

instance (path : String) : Decidable (IsBare path) :=
  decidable_of_iff
    (path.toList.all (fun c => decide (Text.isBlank c = false ∧ c ∉ ['[', ']', '"'])) = true)
    ⟨fun h c hc => of_decide_eq_true (List.all_eq_true.mp h c hc),
      fun h => List.all_eq_true.mpr fun c hc => decide_eq_true (h c hc)⟩

/-- The attribute that the names of a path lead to. -/
def attribute? (limit : Nat) (path : String) (a : Attribute) : Option Attribute :=
  (do
    let steps ← compile limit path
    target path a steps).toOption

/-- The text is made of the names, which have no dots, with dots between them. -/
structure Dotted (s : List Char) (names : List String) : Prop where
  nonempty : names ≠ []
  join : (".".intercalate names).toList = s
  chars : ∀ n ∈ names, ∀ c ∈ n.toList, c ∈ s ∧ c ≠ '.'

/-- Every text is made of names without dots. -/
theorem exists_dotted (s : List Char) : ∃ names, Dotted s names := by
  induction s with
  | nil => exact ⟨[""], List.cons_ne_nil _ _, rfl, by simp⟩
  | cons c rest ih =>
      obtain ⟨names, hne, hjoin, hchars⟩ := ih
      obtain ⟨name, others, rfl⟩ := List.exists_cons_of_ne_nil hne
      have hrest : ∀ n ∈ name :: others, ∀ d ∈ n.toList, d ∈ c :: rest ∧ d ≠ '.' :=
        fun n hn d hd => ⟨List.mem_cons_of_mem _ (hchars n hn d hd).1, (hchars n hn d hd).2⟩
      by_cases hdot : c = '.'
      · refine ⟨"" :: name :: others, List.cons_ne_nil _ _, ?_,
          List.forall_mem_cons.mpr ⟨by simp, hrest⟩⟩
        rw [toList_intercalate_cons, hjoin, hdot]
        rfl
      · obtain ⟨hname, hothers⟩ := List.forall_mem_cons.mp hrest
        refine ⟨(String.singleton c ++ name) :: others, List.cons_ne_nil _ _, ?_,
          List.forall_mem_cons.mpr ⟨?_, hothers⟩⟩
        · cases others with
          | nil => simpa using hjoin
          | cons next others =>
              rw [toList_intercalate_cons] at hjoin ⊢
              simpa using hjoin
        · intro d hd
          rcases (by simpa using hd : d = c ∨ d ∈ name.toList) with rfl | hd
          · exact ⟨List.mem_cons_self, hdot⟩
          · exact hname d hd

/-- What has no colon and follows one is the part after the last colon. -/
theorem afterLastColon_eq (hrest : ':' ∉ rest) : afterLastColon (front ++ ':' :: rest) = rest := by
  have hback : ∀ c ∈ rest.reverse, (c != ':') = true := fun c hc =>
    bne_iff_ne.mpr fun h => hrest (h ▸ List.mem_reverse.mp hc)
  rw [afterLastColon, List.reverse_append, List.reverse_cons, List.append_assoc,
    List.takeWhile_append_of_pos hback]
  simp

/-- A text with a colon has a last one. -/
theorem exists_last_colon (h : ':' ∈ text.toList) :
    ∃ front rest, text = front ++ ":" ++ rest ∧ ':' ∉ rest.toList := by
  obtain ⟨back, front, hreverse, hback⟩ :=
    List.eq_append_cons_of_mem (List.mem_reverse.mpr h)
  refine ⟨String.ofList front.reverse, String.ofList back.reverse, ?_, by simpa using hback⟩
  rw [← String.toList_inj, ← List.reverse_inj, hreverse]
  simp

/-- A path that starts like the name of a schema loses what is before its last colon. -/
theorem unqualified_of_colon {front rest : String}
    (hqualified : isQualified (front ++ ":" ++ rest).toList = true)
    (hbracket : '[' ∉ (front ++ ":" ++ rest).toList) (hrest : ':' ∉ rest.toList) :
    unqualified (front ++ ":" ++ rest).toList = rest.toList := by
  have hplain : ∀ c ∈ (front ++ ":" ++ rest).toList, (c != '[') = true := fun c hc =>
    bne_iff_ne.mpr fun h => hbracket (h ▸ hc)
  have hlast : (front ++ ":" ++ rest).toList = front.toList ++ ':' :: rest.toList := by simp
  rw [unqualified, if_pos hqualified, List.takeWhile_eq_self_iff.mpr hplain,
    List.dropWhile_eq_nil_iff.mpr hplain, List.append_nil, hlast, afterLastColon_eq hrest]

/-- A path without special characters compiles to its names, unless one of them is empty. -/
theorem compile_bare (hbare : IsBare path) (h : Dotted (unqualified path.toList) names) :
    (compile limit path).toOption = if "" ∈ names then none else some (names.map .name) := by
  have hsub : ∀ n ∈ names, ∀ c ∈ n.toList, c ∈ path.toList := fun n hn c hc =>
    (unqualified_sublist _).subset (h.chars n hn c hc).1
  have hsegment : ∀ n ∈ names, segmentsFrom .outside false [] n.toList = .ok [n.toList] := by
    intro n hn
    have hplain : ∀ c ∈ n.toList, c ∉ ['.', '[', ']', '"'] := fun c hc =>
      List.not_mem_cons_of_ne_of_not_mem (h.chars n hn c hc).2 (hbare c (hsub n hn c hc)).2
    rw [segmentsFrom_plain_all hplain, List.append_nil, List.reverse_reverse,
      Text.trim_of_notBlank fun c hc => (hbare c (hsub n hn c hc)).1]
  have hall := segmentsFrom_dotted hsegment h.nonempty
  rw [h.join] at hall
  have htrim := Text.trim_of_notBlank fun c hc => (hbare c hc).1
  split
  case isTrue hempty =>
      have hany : (names.map String.toList).any List.isEmpty = true :=
        List.any_eq_true.mpr ⟨[], List.mem_map_of_mem hempty, rfl⟩
      have hsegments : segments (unqualified path.toList) = .error .emptySegment := by
        rw [segments, hall]
        exact if_pos hany
      unfold compile
      dsimp only
      rw [htrim, hsegments]
      split <;> rfl
  case isFalse hempty =>
      have hnonempty : ∀ n ∈ names, n ≠ "" := fun n hn h => hempty (h ▸ hn)
      have hany : (names.map String.toList).any List.isEmpty = false := by
        simpa [List.any_eq_false] using hnonempty
      have hpath : unqualified path.toList ≠ [] := by
        obtain ⟨name, others, rfl⟩ := List.exists_cons_of_ne_nil h.nonempty
        intro hnil
        refine hnonempty name List.mem_cons_self (String.toList_eq_nil_iff.mp ?_)
        refine List.eq_nil_iff_forall_not_mem.mpr fun c hc => ?_
        have hc := (h.chars name List.mem_cons_self c hc).1
        rw [hnil] at hc
        cases hc
      rw [compile_of_segments htrim rfl hpath hall hany, stepsFrom_names]
      · rfl
      · intro n hn
        rw [List.contains_eq_mem]
        exact decide_eq_false fun hmem => (hbare _ (hsub n hn _ hmem)).2 List.mem_cons_self

/-- The walk for a path without special characters goes along its names. -/
theorem attribute?_bare (hbare : IsBare path) (h : Dotted (unqualified path.toList) names) :
    attribute? limit path a = some b ↔
      "" ∉ names ∧ target path a (names.map .name) = .ok b := by
  have hcompile : (compile limit path).toOption = _ := compile_bare hbare h
  rw [attribute?]
  split at hcompile
  case isTrue hempty =>
      cases hsteps : compile limit path with
      | error => exact ⟨nofun, fun h => absurd hempty h.1⟩
      | ok steps =>
          rw [hsteps] at hcompile
          cases hcompile
  case isFalse hempty =>
      cases hsteps : compile limit path with
      | error =>
          rw [hsteps] at hcompile
          cases hcompile
      | ok steps =>
          rw [hsteps] at hcompile
          cases hcompile
          rw [ok_bind, and_iff_right hempty]
          cases target path a (names.map .name) <;> simp [Except.toOption]

/-- Names lead to an attribute exactly if a chain passes them, in any case. -/
theorem target_names_iff (hsound : a.Sound) :
    target path a (names.map .name) = .ok b ↔ ∃ chain, Schema.follow a chain = some b ∧
      (a.namesAlong chain).map Text.folded = names.map Text.folded := by
  induction names generalizing a with
  | nil =>
      constructor
      · intro h
        cases h
        exact ⟨[], rfl, rfl⟩
      · rintro ⟨chain, hchain, hnames⟩
        have hnil : chain = [] := by
          by_contra hne
          exact Schema.namesAlong_ne_nil hchain hne (List.map_eq_nil_iff.mp hnames)
        subst hnil
        cases hchain
        rfl
  | cons name rest ih =>
      constructor
      · intro h
        rw [List.map_cons, target.eq_def] at h
        dsimp only at h
        split at h
        case h_2 => cases h
        case h_1 s hs =>
            obtain ⟨hmem, hname⟩ := Attribute.mem_of_sub? hs
            obtain ⟨position, hposition⟩ := List.mem_iff_getElem?.mp hmem
            obtain ⟨chain, hchain, hnames⟩ := (ih (hsound.sub hmem)).mp h
            refine ⟨position :: chain, (follow_cons_of_some hposition).trans hchain, ?_⟩
            rw [namesAlong_cons_of_some hposition, List.map_cons, List.map_cons, hnames,
              Text.alike_iff.mp hname]
      · rintro ⟨chain, hchain, hnames⟩
        cases chain with
        | nil => cases hnames
        | cons position chain =>
            obtain ⟨s, hs, hrest⟩ := exists_of_follow_cons hchain
            have hmem := List.mem_of_getElem? hs
            rw [namesAlong_cons_of_some hs, List.map_cons, List.map_cons] at hnames
            obtain ⟨hname, hnames⟩ := List.cons_eq_cons.mp hnames
            have hsub : a.sub? name = some s := by
              rw [Attribute.sub?_congr (Text.alike_iff.mpr hname.symm), hsound.sub?_of_mem hmem]
            rw [List.map_cons, target_cons hsub]
            exact (ih (hsound.sub hmem)).mpr ⟨chain, hrest, hnames⟩

/-- The walk finds an attribute by its path, in any case, once a qualifier is dropped. -/
theorem attribute?_eq_some_iff (hsound : a.Sound) (hbare : IsBare path) :
    attribute? limit path a = some b ↔ ∃ chain, chain ≠ [] ∧ Schema.follow a chain = some b ∧
      Text.alike (String.ofList (unqualified path.toList))
        (".".intercalate (a.namesAlong chain)) = true := by
  obtain ⟨names, hdotted⟩ := exists_dotted (unqualified path.toList)
  rw [attribute?_bare hbare hdotted, ← hdotted.join, String.ofList_toList,
    target_names_iff hsound]
  constructor
  · rintro ⟨_, chain, hchain, hnames⟩
    refine ⟨chain, ?_, hchain, Text.alike_intercalate hnames.symm⟩
    rintro rfl
    exact hdotted.nonempty (List.map_eq_nil_iff.mp hnames.symm)
  · rintro ⟨chain, hchain, hb, halike⟩
    have hnames := Text.folded_eq_of_intercalate
      (fun n hn hdot => (hdotted.chars n hn _ hdot).2 rfl)
      (fun n hn => (Schema.names_of_follow hsound hb n hn).2) hdotted.nonempty
      (Schema.namesAlong_ne_nil hb hchain) halike
    refine ⟨fun hempty => ?_, chain, hb, hnames.symm⟩
    have hmem : Text.folded "" ∈ (a.namesAlong chain).map Text.folded :=
      hnames ▸ List.mem_map_of_mem hempty
    obtain ⟨n, hn, hnil⟩ := List.mem_map.mp hmem
    exact (Schema.names_of_follow hsound hb n hn).1
      (String.toList_eq_nil_iff.mp (List.map_eq_nil_iff.mp hnil))

end Path

/-! ## Agreement -/

namespace Schema

variable {schema : Schema} {a : Attribute} {path text front rest : String} {limit : Nat}

/-- The text is the path of the attribute, in any case. -/
def Spells (schema : Schema) (text : String) (a : Attribute) : Prop :=
  ∃ chain, chain ≠ [] ∧ follow schema.root chain = some a ∧ Text.alike text a.path = true

/-- The index finds the attribute that the path without the identifier spells. -/
theorem attribute?_eq_some_iff (h : schema.Accepted) :
    schema.attribute? path = some a ↔ schema.Spells (schema.unqualified path) a := by
  constructor
  · intro hfound
    obtain ⟨⟨chain, hne, ha⟩, halike⟩ := path_of_attribute? h hfound
    exact ⟨chain, hne, ha, halike⟩
  · rintro ⟨chain, hne, ha, halike⟩
    rw [attribute?, Text.alike_iff_lowered.mp halike, lookup_index h hne ha]
    exact ha

/-- The walk finds the attribute that the path without a qualifier spells. -/
theorem walk_eq_some_iff (h : schema.Accepted)
    (hbare : Path.IsBare path) :
    Path.attribute? limit path schema.root = some a ↔
      schema.Spells (String.ofList (Path.unqualified path.toList)) a := by
  rw [Path.attribute?_eq_some_iff h.sound hbare]
  refine exists_congr fun chain => and_congr_right fun hne => and_congr_right fun ha => ?_
  rw [h.path_eq hne ha]

/-- No attribute has an empty path. -/
theorem Accepted.not_spells_empty (h : schema.Accepted) : ¬ schema.Spells "" a := by
  rintro ⟨chain, hne, ha, halike⟩
  exact h.path_ne_empty hne ha (Text.lowered_eq_empty.mp (Text.alike_iff_lowered.mp halike).symm)

/-- If no attribute has a colon in its name, a text with a colon spells none. -/
theorem Accepted.not_spells_of_colon (h : schema.Accepted)
    (hnames : ∀ n ∈ schema.root.namesBelow, ':' ∉ n.toList) (hcolon : ':' ∈ text.toList) :
    ¬ schema.Spells text a := by
  rintro ⟨chain, hne, ha, halike⟩
  have hfolded : ':' ∈ Text.folded a.path := by
    rw [← Text.alike_iff.mp halike]
    exact List.mem_map_of_mem (f := Char.toLower) hcolon
  obtain ⟨c, hc, hlower⟩ := List.mem_map.mp hfolded
  rw [Text.eq_of_toLower (by decide) hlower, h.path_eq hne ha] at hc
  obtain hdot | ⟨n, hn, hname⟩ := Text.mem_intercalate hc
  · cases hdot
  · exact hnames n (Attribute.namesAlong_subset hn) hname

/-- A path behind the identifier keeps what is behind it. -/
theorem unqualified_eq_rest (hne : rest ≠ "") (h : Text.alike front schema.id = true) :
    schema.unqualified (front ++ ":" ++ rest) = rest :=
  (unqualified_iff.mpr ⟨front, rfl, hne, h, Text.byteSize_eq_of_alike h⟩).1

/-- A path without a colon keeps all of itself. -/
theorem unqualified_of_no_colon (h : ':' ∉ path.toList) : schema.unqualified path = path := by
  by_contra hne
  obtain ⟨front, hpath, _⟩ := cut_of_unqualified rfl hne
  exact h (by rw [hpath]; simp)

/-- What a path keeps has a colon, unless only the identifier is before the last one. -/
theorem unqualified_of_last_colon (hrest : ':' ∉ rest.toList) :
    schema.unqualified (front ++ ":" ++ rest) = rest ∧ Text.alike front schema.id = true ∨
      ':' ∈ (schema.unqualified (front ++ ":" ++ rest)).toList := by
  refine or_iff_not_imp_right.mpr fun hcolon => ?_
  have hcut : schema.unqualified (front ++ ":" ++ rest) ≠ front ++ ":" ++ rest := by
    intro hsame
    rw [hsame] at hcolon
    exact hcolon (by simp)
  obtain ⟨front', hpath, _, halike, _⟩ := cut_of_unqualified rfl hcut
  have hsplit : front.toList ++ ':' :: rest.toList =
      front'.toList ++ ':' :: (schema.unqualified (front ++ ":" ++ rest)).toList := by
    simpa using congrArg String.toList hpath
  have hkept : schema.unqualified (front ++ ":" ++ rest) = rest := by
    rw [← String.toList_inj, ← Path.afterLastColon_eq hcolon, ← hsplit,
      Path.afterLastColon_eq hrest]
  rw [hkept] at hsplit
  obtain rfl := String.toList_inj.mp (List.append_cancel_right hsplit)
  exact ⟨hkept, halike⟩

end Schema

namespace Path

/-- A path starts like the name of a schema exactly if its small letters start with `urn:`. -/
theorem isQualified_iff {s : List Char} :
    isQualified s = true ↔ (s.map Char.toLower).take 4 = ['u', 'r', 'n', ':'] := by
  rw [isQualified, Text.alike_iff, Text.folded, String.toList_ofList, List.map_take]
  rfl

/-- What starts like a qualified text is qualified. -/
theorem isQualified_of_alike {front back text : String} (h : Text.alike front text = true)
    (htext : isQualified text.toList = true) : isQualified (front ++ back).toList = true := by
  rw [isQualified_iff] at htext ⊢
  have hlength := congrArg List.length htext
  have hfront : front.toList.map Char.toLower = text.toList.map Char.toLower := Text.alike_iff.mp h
  rw [String.toList_append, List.map_append, hfront, List.take_append_of_le_length, htext]
  simp at hlength ⊢
  omega

end Path

namespace Schema

variable {schema : Schema} {a : Attribute} {path front rest : String} {limit : Nat}

/-- A path without a qualifier is looked up as it stands. -/
theorem unqualified_of_plain (hid : Path.isQualified schema.id.toList = true)
    (hplain : Path.isQualified path.toList = false) : schema.unqualified path = path := by
  by_contra hne
  obtain ⟨front, hpath, _, halike, _⟩ := cut_of_unqualified rfl hne
  have hqualified : Path.isQualified (front ++ (":" ++ schema.unqualified path)).toList = true :=
    Path.isQualified_of_alike halike hid
  rw [← String.append_assoc, ← hpath, hplain] at hqualified
  cases hqualified

/-- Behind a qualifier, the walk finds what the part after the last colon spells. -/
theorem walk_behind_qualifier (h : schema.Accepted) (hbare : Path.IsBare (front ++ ":" ++ rest))
    (hqualified : Path.isQualified (front ++ ":" ++ rest).toList = true)
    (hrest : ':' ∉ rest.toList) :
    Path.attribute? limit (front ++ ":" ++ rest) schema.root = some a ↔ schema.Spells rest a := by
  have hbracket : '[' ∉ (front ++ ":" ++ rest).toList :=
    fun hmem => (hbare _ hmem).2 List.mem_cons_self
  rw [walk_eq_some_iff h hbare, Path.unqualified_of_colon hqualified hbracket hrest,
    String.ofList_toList]

/-- So does the index behind the identifier of the schema. -/
theorem index_behind_id (h : schema.Accepted)
    (hnames : ∀ n ∈ schema.root.namesBelow, ':' ∉ n.toList) (hrest : ':' ∉ rest.toList)
    (hown : Text.alike front schema.id = true) :
    schema.attribute? (front ++ ":" ++ rest) = some a ↔ schema.Spells rest a := by
  rw [attribute?_eq_some_iff h]
  by_cases hempty : rest = ""
  · subst hempty
    refine iff_of_false ?_ h.not_spells_empty
    rcases unqualified_of_last_colon hrest with ⟨hkept, _⟩ | hcolon
    · rw [hkept]
      exact h.not_spells_empty
    · exact h.not_spells_of_colon hnames hcolon
  · rw [unqualified_eq_rest hempty hown]

/-- Behind any other text and a colon, the index finds nothing. -/
theorem index_behind_other (h : schema.Accepted)
    (hnames : ∀ n ∈ schema.root.namesBelow, ':' ∉ n.toList) (hrest : ':' ∉ rest.toList)
    (hother : Text.alike front schema.id = false) :
    schema.attribute? (front ++ ":" ++ rest) = none := by
  refine Option.eq_none_iff_forall_ne_some.mpr fun a hfound => ?_
  rcases unqualified_of_last_colon hrest with ⟨_, hown⟩ | hcolon
  · cases hown.symm.trans hother
  · exact h.not_spells_of_colon hnames hcolon ((attribute?_eq_some_iff h).mp hfound)

/-- On a path without brackets, quotes and white space, the walk finds what the index finds if the
path has no qualifier or is behind the identifier of the schema.  Behind any other qualifier the
index finds nothing, and the walk finds what the index finds for the rest. -/
theorem walk_agrees_with_index (h : schema.Accepted)
    (hid : Path.isQualified schema.id.toList = true)
    (hnames : ∀ n ∈ schema.root.namesBelow, ':' ∉ n.toList) (hbare : Path.IsBare path) :
    (Path.isQualified path.toList = false →
      Path.attribute? limit path schema.root = schema.attribute? path) ∧
    (Path.isQualified path.toList = true →
      ∃ front rest, path = front ++ ":" ++ rest ∧ ':' ∉ rest.toList ∧
        (Text.alike front schema.id = true →
          Path.attribute? limit path schema.root = schema.attribute? path) ∧
        (Text.alike front schema.id = false → schema.attribute? path = none ∧
          Path.attribute? limit path schema.root = schema.attribute? rest)) := by
  constructor
  · intro hplain
    refine Option.ext fun a => ?_
    rw [walk_eq_some_iff h hbare, attribute?_eq_some_iff h, unqualified_of_plain hid hplain,
      Path.unqualified_eq_self hplain, String.ofList_toList]
  · intro hqualified
    obtain ⟨front, rest, rfl, hrest⟩ :=
      Path.exists_last_colon (Path.colon_mem_of_isQualified hqualified)
    refine ⟨front, rest, rfl, hrest, fun hown => Option.ext fun a => ?_, fun hother =>
      ⟨index_behind_other h hnames hrest hother, Option.ext fun a => ?_⟩⟩
    · rw [walk_behind_qualifier h hbare hqualified hrest, index_behind_id h hnames hrest hown]
    · rw [walk_behind_qualifier h hbare hqualified hrest, attribute?_eq_some_iff h,
        unqualified_of_no_colon hrest]

/-- In the schema of groups, both find the identifier of a member behind the identifier of the
schema in capitals. -/
theorem walk_agrees_with_index_group :
    let path := "URN:IETF:PARAMS:SCIM:SCHEMAS:CORE:2.0:GROUP:members.VALUE"
    (∀ n ∈ group.root.namesBelow, ':' ∉ n.toList) ∧ Path.isQualified path.toList = true ∧
      Path.attribute? Filter.defaultMaxLength path group.root = group.attribute? path ∧
      ∃ a, group.attribute? path = some a ∧ a.path = "members.value" := by
  intro path
  have hid : Path.isQualified group.id.toList = true := by decide +kernel
  have hnames : ∀ n ∈ group.root.namesBelow, ':' ∉ n.toList := by decide +kernel
  have hbare : Path.IsBare path := by decide +kernel
  have hqualified : Path.isQualified path.toList = true := by decide +kernel
  obtain ⟨a, ha, hpath⟩ : ∃ a, group.attribute? path = some a ∧ a.path = "members.value" :=
    Option.map_eq_some_iff.mp (by decide +kernel)
  obtain ⟨front, _, _, _, hown, hother⟩ :=
    (walk_agrees_with_index (.built build_group) hid hnames hbare).2 hqualified
  refine ⟨hnames, hqualified, ?_, a, ha, hpath⟩
  cases halike : Text.alike front group.id with
  | true => exact hown halike
  | false => cases ha.symm.trans (hother halike).1

/-- Under a path behind the identifier of users, the schema of groups has no attribute in its index,
but the walk drops that identifier too and finds one. -/
theorem walk_drops_other_identifier :
    let path := "urn:ietf:params:scim:schemas:core:2.0:User:displayName"
    group.Accepted ∧ Path.isQualified group.id.toList = true ∧
      (∀ n ∈ group.root.namesBelow, ':' ∉ n.toList) ∧
      Path.IsBare path ∧ group.attribute? path = none ∧
      ∃ a, Path.attribute? Filter.defaultMaxLength path group.root = some a ∧
        a.path = "displayName" := by
  refine ⟨.built build_group, by decide +kernel, by decide +kernel, by decide +kernel, ?_, ?_⟩
  · exact Option.isNone_iff_eq_none.mp (by decide +kernel)
  · exact Option.map_eq_some_iff.mp (by decide +kernel)

end Schema

end Scim
