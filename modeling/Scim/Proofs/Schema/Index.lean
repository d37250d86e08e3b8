import Scim.Proofs.Schema.Soundness
import Scim.Schema.Record

/-!
# The index of a schema

The index takes the dotted path of every attribute, in small letters, to the chain of positions
that leads to it, and it holds nothing else (`Schema.mem_index_iff`).

Everything is told by the names that a chain passes (`Attribute.namesAlong`).  Placing an attribute
joins them by dots to its path (`Attribute.PlacedAt`), and the index joins them in small letters to
its key.  No name has a dot, so the joined text gives the names back, and siblings differ by name,
so the names give the chain back (`Attribute.Sound.chain_unique`).  Hence no key stands for two
chains.

A path behind the identifier of the schema is looked up without it (`Schema.unqualified_of_alike`),
so the full path of an attribute finds it in any case.
-/

namespace Scim

/-! ## Names joined by dots -/

namespace Text

theorem lowered_append (s t : String) : lowered (s ++ t) = lowered s ++ lowered t := by
  rw [← String.toList_inj]
  simp [lowered, folded]

theorem alike_iff_lowered {s t : String} : alike s t = true ↔ lowered s = lowered t := by
  rw [alike_iff, ← String.toList_inj, toList_lowered, toList_lowered]

@[simp] theorem lowered_eq_empty {s : String} : lowered s = "" ↔ s = "" := by
  rw [← String.toList_inj, ← String.toList_inj, toList_lowered, folded]
  simp

/-- Names can be joined and put in small letters in either order. -/
theorem lowered_intercalate (names : List String) :
    lowered (".".intercalate names) = ".".intercalate (names.map lowered) := by
  induction names with
  | nil => rfl
  | cons name rest ih =>
      cases rest with
      | nil => simp
      | cons next rest =>
          rw [List.map_cons, List.map_cons,
            String.intercalate_cons_of_ne_nil (List.cons_ne_nil _ _),
            String.intercalate_cons_of_ne_nil (List.cons_ne_nil _ _), lowered_append,
            lowered_append, ih]
          rfl

/-- Folding keeps the number of bytes. -/
theorem utf8Size_toLower (c : Char) : c.toLower.utf8Size = c.utf8Size := by
  unfold Char.toLower
  split
  case isTrue hcase =>
      obtain ⟨hlow, hhigh⟩ := hcase
      have hsmall : c.utf8Size = 1 := by
        rw [Char.utf8Size_eq_one_iff, UInt32.le_iff_toNat_le]
        exact Nat.le_trans (UInt32.le_iff_toNat_le.mp hhigh) (by decide)
      rw [hsmall, Char.utf8Size_eq_one_iff]
      simp only [ge_iff_le, UInt32.le_iff_toNat_le, UInt32.toNat_add] at hlow hhigh ⊢
      simp at hlow hhigh ⊢
      omega
  case isFalse => rfl

/-- No character between the space and the end of ASCII is white space. -/
theorem isBlank_of_between {c : Char} (h : 0x20 < c.toNat) (h' : c.toNat < 0x80) :
    isBlank c = false := by
  simp only [isBlank, Bool.or_eq_false_iff, Bool.and_eq_false_iff, decide_eq_false_iff_not,
    beq_eq_false_iff_ne]
  omega

/-- Folding keeps white space. -/
theorem isBlank_toLower (c : Char) : isBlank c.toLower = isBlank c := by
  unfold Char.toLower
  split
  case isTrue hcase =>
      obtain ⟨hlow, hhigh⟩ := hcase
      simp only [ge_iff_le, UInt32.le_iff_toNat_le] at hlow hhigh
      simp at hlow hhigh
      -- A capital and its small letter are both above the space.
      rw [isBlank_of_between (c := c), isBlank_of_between] <;>
        simp only [Char.toNat, UInt32.toNat_add] <;> simp <;> omega
  case isFalse => rfl

theorem byteSize_eq_of_alike {s t : String} (h : alike s t = true) :
    byteSize s.toList = byteSize t.toList := by
  have hfolded : ∀ cs : List Char, byteSize (cs.map Char.toLower) = byteSize cs := by
    intro cs
    induction cs with
    | nil => rfl
    | cons c rest ih => rw [List.map_cons, byteSize_cons, byteSize_cons, utf8Size_toLower, ih]
  rw [← hfolded s.toList, ← hfolded t.toList]
  exact congrArg byteSize (alike_iff.mp h)

theorem dot_notMem_folded {s : String} (h : '.' ∉ s.toList) : '.' ∉ folded s := by
  intro hmem
  obtain ⟨c, hc, hlower⟩ := List.mem_map.mp hmem
  exact h (eq_of_toLower (by decide) hlower ▸ hc)

/-- Names without dots can be read off the text that joins them. -/
theorem folded_eq_of_intercalate {names names' : List String}
    (hdots : ∀ n ∈ names, '.' ∉ n.toList) (hdots' : ∀ n ∈ names', '.' ∉ n.toList)
    (hne : names ≠ []) (hne' : names' ≠ [])
    (h : alike (".".intercalate names) (".".intercalate names') = true) :
    names.map folded = names'.map folded := by
  have hsplit : ∀ {ns : List String}, (∀ n ∈ ns, '.' ∉ n.toList) → ns ≠ [] →
      List.splitOn '.' (lowered (".".intercalate ns)).toList = ns.map folded := by
    intro ns hns hnil
    have hfolded : (ns.map lowered).map String.toList = ns.map folded := by
      rw [List.map_map]
      exact List.map_congr_left fun n _ => toList_lowered n
    rw [lowered_intercalate, String.toList_intercalate, hfolded]
    refine List.splitOn_intercalate '.' ?_ (by simpa using hnil)
    intro l hl
    obtain ⟨n, hn, rfl⟩ := List.mem_map.mp hl
    exact dot_notMem_folded (hns n hn)
  rw [← hsplit hdots hne, ← hsplit hdots' hne', alike_iff_lowered.mp h]

end Text

namespace Attribute

/-- A name behind the names above it is joined to them by a dot. -/
theorem joinPath_intercalate {front : List String} (h : ∀ n ∈ front, n ≠ "") (name : String) :
    joinPath (".".intercalate front) name = ".".intercalate (front ++ [name]) := by
  cases front with
  | nil => simp [joinPath]
  | cons first rest =>
      have hfirst : first ≠ "" := h first List.mem_cons_self
      have hne : ¬ (".".intercalate (first :: rest)).isEmpty = true := by
        rw [String.isEmpty_iff]
        cases rest with
        | nil => simpa using hfirst
        | cons next rest =>
            rw [String.intercalate_cons_of_ne_nil (List.cons_ne_nil _ _)]
            simp [hfirst]
      rw [joinPath, if_neg hne,
        String.intercalate_append_of_ne_nil (List.cons_ne_nil _ _) (List.cons_ne_nil _ _),
        String.intercalate_singleton]

/-! ## Chains of positions -/

/-- The names that a chain of positions passes, from the top. -/
def namesAlong (a : Attribute) : List Nat → List String
  | [] => []
  | position :: rest =>
      match a.subAttributes[position]? with
      | some s => s.name :: s.namesAlong rest
      | none => []

end Attribute

namespace Schema

open Attribute

variable {a b s : Attribute} {chain chain' rest : List Nat} {position : Nat}

theorem follow_cons_of_some (hs : a.subAttributes[position]? = some s) :
    follow a (position :: rest) = follow s rest := by
  rw [follow, hs]

theorem namesAlong_cons_of_some (hs : a.subAttributes[position]? = some s) :
    a.namesAlong (position :: rest) = s.name :: s.namesAlong rest := by
  rw [namesAlong, hs]

/-- The first position of a chain leads to a sub-attribute. -/
theorem exists_of_follow_cons (h : follow a (position :: rest) = some b) :
    ∃ s, a.subAttributes[position]? = some s ∧ follow s rest = some b := by
  rw [follow] at h
  split at h
  case h_1 s hs => exact ⟨s, hs, h⟩
  case h_2 => cases h

/-- A chain that leads somewhere passes names of sub-attributes. -/
theorem names_of_follow (hsound : a.Sound) (h : follow a chain = some b) :
    ∀ n ∈ a.namesAlong chain, n ≠ "" ∧ '.' ∉ n.toList := by
  induction chain generalizing a with
  | nil => exact fun _ hn => absurd hn List.not_mem_nil
  | cons position rest ih =>
      obtain ⟨s, hs, hrest⟩ := exists_of_follow_cons h
      have hmem := List.mem_of_getElem? hs
      rw [namesAlong_cons_of_some hs]
      exact List.forall_mem_cons.mpr ⟨hsound.names hmem, ih (hsound.sub hmem) hrest⟩

theorem namesAlong_ne_nil (h : follow a chain = some b) (hne : chain ≠ []) :
    a.namesAlong chain ≠ [] := by
  cases chain with
  | nil => exact absurd rfl hne
  | cons position rest =>
      obtain ⟨s, hs, _⟩ := exists_of_follow_cons h
      rw [namesAlong_cons_of_some hs]
      exact List.cons_ne_nil _ _

end Schema

namespace Attribute

open Schema

variable {a b b' s s' : Attribute} {chain chain' : List Nat} {schemaId : String}

/-- Siblings of one name in any case stand at one position. -/
theorem DistinctNames.position_unique {as : List Attribute} {i j : Nat} (h : DistinctNames as)
    (hs : as[i]? = some s) (hs' : as[j]? = some s') (halike : Text.alike s.name s'.name = true) :
    i = j := by
  obtain ⟨hi, rfl⟩ := List.getElem?_eq_some_iff.mp hs
  obtain ⟨hj, rfl⟩ := List.getElem?_eq_some_iff.mp hs'
  have hpairwise := List.pairwise_iff_getElem.mp h
  rcases Nat.lt_trichotomy i j with hlt | heq | hlt
  · rw [hpairwise i j hi hj hlt] at halike
    cases halike
  · exact heq
  · rw [Text.alike_comm, hpairwise j i hj hi hlt] at halike
    cases halike

/-- A chain is told by the names that it passes, whatever their case. -/
theorem Sound.chain_unique (hsound : a.Sound) (h : follow a chain = some b)
    (h' : follow a chain' = some b')
    (hnames : (a.namesAlong chain).map Text.folded = (a.namesAlong chain').map Text.folded) :
    chain = chain' := by
  induction chain generalizing a chain' with
  | nil =>
      by_contra hne
      exact namesAlong_ne_nil h' (Ne.symm hne) (List.map_eq_nil_iff.mp hnames.symm)
  | cons i rest ih =>
      obtain ⟨s, hs, hrest⟩ := exists_of_follow_cons h
      cases chain' with
      | nil =>
          rw [namesAlong_cons_of_some hs] at hnames
          cases hnames
      | cons j rest' =>
          obtain ⟨s', hs', hrest'⟩ := exists_of_follow_cons h'
          rw [namesAlong_cons_of_some hs, namesAlong_cons_of_some hs', List.map_cons,
            List.map_cons] at hnames
          obtain ⟨hname, hnames⟩ := List.cons_eq_cons.mp hnames
          obtain rfl := hsound.distinct.position_unique hs hs' (Text.alike_iff.mpr hname)
          obtain rfl := Option.some.inj (hs.symm.trans hs')
          rw [ih (hsound.sub (List.mem_of_getElem? hs)) hrest hrest' hnames]

/-! ## Paths of placed attributes -/

/-- The attribute and all those below it know their paths, where `names` leads to it. -/
inductive PlacedAt (schemaId : String) : List String → Attribute → Prop where
  | intro {names : List String} {a : Attribute} (path : a.path = ".".intercalate names)
      (full : a.fullPath = schemaId ++ ":" ++ a.path)
      (subs : ∀ s ∈ a.subAttributes, PlacedAt schemaId (names ++ [s.name]) s) :
      PlacedAt schemaId names a

namespace PlacedAt

variable {names : List String}

theorem path (h : a.PlacedAt schemaId names) : a.path = ".".intercalate names := by
  cases h with
  | intro path _ _ => exact path

theorem full (h : a.PlacedAt schemaId names) : a.fullPath = schemaId ++ ":" ++ a.path := by
  cases h with
  | intro _ full _ => exact full

theorem sub (h : a.PlacedAt schemaId names) (hs : s ∈ a.subAttributes) :
    s.PlacedAt schemaId (names ++ [s.name]) := by
  cases h with
  | intro _ _ subs => exact subs s hs

end PlacedAt

mutual

/-- Placing gives an attribute the path that its names make. -/
theorem placedAt_place (schemaId : String) : ∀ (front : List String) (a : Attribute),
    (∀ n ∈ front, n ≠ "") → a.name ≠ "" →
    (place schemaId (".".intercalate front) a).Sound →
    (place schemaId (".".intercalate front) a).PlacedAt schemaId (front ++ [a.name])
  | front, ⟨traits, subs⟩, hfront, hname, hsound => by
      have hnames : ∀ n ∈ front ++ [traits.name], n ≠ "" :=
        List.forall_mem_append.mpr ⟨hfront, by simpa using hname⟩
      rw [place, joinPath_intercalate hfront] at hsound ⊢
      refine ⟨rfl, rfl, ?_⟩
      exact placedAt_placeAll schemaId (front ++ [traits.name]) subs hnames
        fun s hs => ⟨(hsound.names hs).1, hsound.sub hs⟩
termination_by structural _ a => a

/-- Placing gives all siblings the paths that their names make. -/
theorem placedAt_placeAll (schemaId : String) : ∀ (front : List String) (as : List Attribute),
    (∀ n ∈ front, n ≠ "") →
    (∀ s ∈ placeAll schemaId (".".intercalate front) as, s.name ≠ "" ∧ s.Sound) →
    ∀ s ∈ placeAll schemaId (".".intercalate front) as, s.PlacedAt schemaId (front ++ [s.name])
  | _, [], _, _ => fun _ hs => absurd hs List.not_mem_nil
  | front, a :: rest, hfront, hsound => by
      rw [placeAll] at hsound ⊢
      obtain ⟨⟨hname, ha⟩, hrest⟩ := List.forall_mem_cons.mp hsound
      refine List.forall_mem_cons.mpr ⟨?_, placedAt_placeAll schemaId front rest hfront hrest⟩
      rw [name_place] at hname ⊢
      exact placedAt_place schemaId front a hfront hname ha
termination_by structural _ as => as

end

/-- The path of an attribute below another one is made of the names on the way. -/
theorem placedAt_of_follow {names : List String}
    (hsubs : ∀ s ∈ a.subAttributes, s.PlacedAt schemaId (names ++ [s.name])) (hne : chain ≠ [])
    (h : follow a chain = some b) : b.PlacedAt schemaId (names ++ a.namesAlong chain) := by
  induction chain generalizing a names with
  | nil => exact absurd rfl hne
  | cons position rest ih =>
      obtain ⟨s, hs, hrest⟩ := exists_of_follow_cons h
      have hplaced := hsubs s (List.mem_of_getElem? hs)
      rw [namesAlong_cons_of_some hs]
      cases rest with
      | nil =>
          cases hrest
          exact hplaced
      | cons next rest =>
          rw [List.append_cons]
          exact ih (fun t ht => hplaced.sub ht) (List.cons_ne_nil _ _) hrest

end Attribute

/-! ## Entries -/

namespace Schema

open Attribute

/-- The key of the names that lead to an attribute. -/
def keyOf (names : List String) : String := ".".intercalate (names.map Text.lowered)

theorem joinPath_keyOf {front : List String} (h : ∀ n ∈ front, n ≠ "") (name : String) :
    joinPath (keyOf front) (Text.lowered name) = keyOf (front ++ [name]) := by
  have hlowered : ∀ n ∈ front.map Text.lowered, n ≠ "" := by simpa using h
  rw [keyOf, joinPath_intercalate hlowered, keyOf, List.map_append, List.map_singleton]

mutual

/-- The entries below an attribute are those of the chains that lead on from it. -/
theorem mem_entriesBelow {key : String} {chain : List Nat} : ∀ (front : List String)
    (here : List Nat) (a : Attribute), (∀ n ∈ front, n ≠ "") → a.Sound →
    ((key, chain) ∈ entriesBelow (keyOf front) here a ↔
      ∃ tail b, tail ≠ [] ∧ follow a tail = some b ∧ chain = here ++ tail ∧
        key = keyOf (front ++ a.namesAlong tail))
  | front, here, ⟨traits, subs⟩, hfront, hsound => by
      rw [entriesBelow, mem_entriesFrom front here 0 subs hfront
        fun s hs => ⟨(hsound.names hs).1, hsound.sub hs⟩]
      constructor
      · rintro ⟨i, s, tail, b, hs, hb, rfl, rfl⟩
        refine ⟨i :: tail, b, List.cons_ne_nil _ _, ?_, by rw [Nat.zero_add], ?_⟩
        · exact (follow_cons_of_some hs).trans hb
        · exact congrArg (fun names => keyOf (front ++ names)) (namesAlong_cons_of_some hs).symm
      · rintro ⟨tail, b, hne, hb, rfl, rfl⟩
        obtain ⟨i, tail, rfl⟩ := List.exists_cons_of_ne_nil hne
        obtain ⟨s, hs, hb⟩ := exists_of_follow_cons hb
        exact ⟨i, s, tail, b, hs, hb, by rw [Nat.zero_add],
          congrArg (fun names => keyOf (front ++ names)) (namesAlong_cons_of_some hs)⟩
termination_by structural _ _ a => a

/-- The entries of siblings are those of the chains through them. -/
theorem mem_entriesFrom {key : String} {chain : List Nat} : ∀ (front : List String)
    (here : List Nat) (position : Nat) (as : List Attribute), (∀ n ∈ front, n ≠ "") →
    (∀ s ∈ as, s.name ≠ "" ∧ s.Sound) →
    ((key, chain) ∈ entriesFrom (keyOf front) here position as ↔
      ∃ i s tail b, as[i]? = some s ∧ follow s tail = some b ∧
        chain = here ++ (position + i) :: tail ∧
        key = keyOf (front ++ s.name :: s.namesAlong tail))
  | _, _, _, [], _, _ => by simp [entriesFrom]
  | front, here, position, a :: rest, hfront, hsound => by
      obtain ⟨⟨hname, ha⟩, hrest⟩ := List.forall_mem_cons.mp hsound
      have hnames : ∀ n ∈ front ++ [a.name], n ≠ "" :=
        List.forall_mem_append.mpr ⟨hfront, by simpa using hname⟩
      have hbelow : (key, chain) ∈ entriesBelow (keyOf (front ++ [a.name])) (here ++ [position]) a ↔
          _ := mem_entriesBelow (front ++ [a.name]) (here ++ [position]) a hnames ha
      have hafter : (key, chain) ∈ entriesFrom (keyOf front) here (position + 1) rest ↔ _ :=
        mem_entriesFrom front here (position + 1) rest hfront hrest
      rw [entriesFrom, joinPath_keyOf hfront, List.mem_append, List.mem_cons, hbelow, hafter]
      constructor
      · rintro ((hhere | ⟨tail, b, _, hb, rfl, rfl⟩) | ⟨i, s, tail, b, hs, hb, rfl, rfl⟩)
        · obtain ⟨rfl, rfl⟩ := Prod.mk.inj hhere
          exact ⟨0, a, [], a, rfl, rfl, rfl, rfl⟩
        · exact ⟨0, a, tail, b, rfl, hb, by simp, by simp⟩
        · exact ⟨i + 1, s, tail, b, hs, hb, by rw [Nat.add_assoc, Nat.add_comm 1 i], rfl⟩
      · rintro ⟨i, s, tail, b, hs, hb, rfl, rfl⟩
        cases i with
        | zero =>
            cases hs
            cases tail with
            | nil => exact Or.inl (Or.inl rfl)
            | cons next tail =>
                exact Or.inl (Or.inr ⟨next :: tail, b, List.cons_ne_nil _ _, hb, by simp, by simp⟩)
        | succ i =>
            exact Or.inr ⟨i, s, tail, b, hs, hb, by rw [Nat.add_assoc, Nat.add_comm 1 i], rfl⟩
termination_by structural _ _ _ as => as

end

/-! ## Accepted schemas -/

variable {schema : Schema} {a b : Attribute} {chain chain' : List Nat} {path : String}

namespace Accepted

/-- The path of every attribute is made of the names on the way to it. -/
theorem placedAt (h : schema.Accepted) (hne : chain ≠ [])
    (ha : follow schema.root chain = some a) :
    a.PlacedAt schema.id (schema.root.namesAlong chain) := by
  have hsound := h.sound
  obtain ⟨id, _, _, attributes, hbuild⟩ := h.exists_build
  obtain ⟨_, rfl⟩ := of_build hbuild
  show a.PlacedAt _ ([] ++ _)
  refine placedAt_of_follow ?_ hne ha
  exact placedAt_placeAll id [] _ (fun _ hn => absurd hn List.not_mem_nil)
    fun s hs => ⟨(hsound.names hs).1, hsound.sub hs⟩

theorem path_eq (h : schema.Accepted) (hne : chain ≠ [])
    (ha : follow schema.root chain = some a) :
    a.path = ".".intercalate (schema.root.namesAlong chain) := (h.placedAt hne ha).path

theorem fullPath_eq (h : schema.Accepted) (hne : chain ≠ [])
    (ha : follow schema.root chain = some a) : a.fullPath = schema.id ++ ":" ++ a.path :=
  (h.placedAt hne ha).full

theorem path_ne_empty (h : schema.Accepted) (hne : chain ≠ [])
    (ha : follow schema.root chain = some a) : a.path ≠ "" := by
  obtain ⟨name, rest, hnames⟩ := List.exists_cons_of_ne_nil (namesAlong_ne_nil ha hne)
  have hname : name ≠ "" :=
    (names_of_follow h.sound ha name (hnames ▸ List.mem_cons_self)).1
  rw [h.path_eq hne ha, hnames]
  cases rest with
  | nil => simpa using hname
  | cons next rest =>
      rw [String.intercalate_cons_of_ne_nil (List.cons_ne_nil _ _)]
      simp [hname]

/-- Two chains to attributes of one path in any case are the same. -/
theorem chain_eq_of_path (h : schema.Accepted) (hne : chain ≠ []) (hne' : chain' ≠ [])
    (ha : follow schema.root chain = some a) (hb : follow schema.root chain' = some b)
    (hpath : Text.alike a.path b.path = true) : chain = chain' := by
  rw [h.path_eq hne ha, h.path_eq hne' hb] at hpath
  refine h.sound.chain_unique ha hb (Text.folded_eq_of_intercalate ?_ ?_
    (namesAlong_ne_nil ha hne) (namesAlong_ne_nil hb hne') hpath)
  · exact fun n hn => (names_of_follow h.sound ha n hn).2
  · exact fun n hn => (names_of_follow h.sound hb n hn).2

end Accepted

/-- The index holds the lowered path of every attribute, with the chain to it, and nothing else. -/
theorem mem_index_iff (h : schema.Accepted) {key : String} :
    (key, chain) ∈ schema.index ↔
      chain ≠ [] ∧ ∃ a, follow schema.root chain = some a ∧ key = Text.lowered a.path := by
  have hindex : schema.index = entriesBelow (keyOf []) [] schema.root := by
    obtain ⟨_, _, _, _, hbuild⟩ := h.exists_build
    obtain ⟨_, rfl⟩ := of_build hbuild
    rfl
  have hkey : ∀ {b : Attribute}, chain ≠ [] → follow schema.root chain = some b →
      keyOf (schema.root.namesAlong chain) = Text.lowered b.path := by
    intro b hne hb
    rw [h.path_eq hne hb, Text.lowered_intercalate, keyOf]
  rw [hindex, mem_entriesBelow [] [] schema.root (fun _ hn => absurd hn List.not_mem_nil) h.sound]
  constructor
  · rintro ⟨_, b, hne, hb, rfl, rfl⟩
    exact ⟨hne, b, hb, hkey hne hb⟩
  · rintro ⟨hne, b, hb, rfl⟩
    exact ⟨chain, b, hne, hb, rfl, (hkey hne hb).symm⟩

/-- The path of an attribute in small letters is looked up to the chain to it. -/
theorem lookup_index (h : schema.Accepted) (hne : chain ≠ [])
    (ha : follow schema.root chain = some a) :
    schema.index.lookup (Text.lowered a.path) = some chain := by
  have hmem := (mem_index_iff h).mpr ⟨hne, a, ha, rfl⟩
  cases hfound : schema.index.lookup (Text.lowered a.path) with
  | none =>
      exact absurd rfl (bne_iff_ne.mp (List.lookup_eq_none_iff.mp hfound _ hmem))
  | some chain' =>
      obtain ⟨front, back, hentries, _⟩ := List.lookup_eq_some_iff.mp hfound
      have hmem' : (Text.lowered a.path, chain') ∈ schema.index := by simp [hentries]
      obtain ⟨hne', b, hb, hpath⟩ := (mem_index_iff h).mp hmem'
      rw [h.chain_eq_of_path hne hne' ha hb (Text.alike_iff_lowered.mpr hpath)]

/-! ## Paths behind the identifier -/

/-- A path loses the identifier in front of it, in any case, if a colon and more follows. -/
theorem unqualified_of_cut {front back : List Char} (hpath : path.toList = front ++ ':' :: back)
    (hback : back ≠ []) (halike : Text.alike (String.ofList front) schema.id = true) :
    schema.unqualified path = String.ofList back := by
  have hlength : schema.id.length = front.length := by
    have hfolded := congrArg List.length (Text.alike_iff.mp halike)
    rw [Text.folded, Text.folded, List.length_map, List.length_map, String.toList_ofList] at hfolded
    exact hfolded.symm
  obtain ⟨c, rest, rfl⟩ := List.exists_cons_of_ne_nil hback
  rw [unqualified, hpath, hlength, List.drop_left, List.take_left]
  exact if_pos halike

/-- What a path loses is the identifier and the colon behind it.  The cut is behind as many bytes
as the identifier has. -/
theorem cut_of_unqualified {rest : String} (h : schema.unqualified path = rest)
    (hne : rest ≠ path) :
    ∃ front, path = front ++ ":" ++ rest ∧ rest ≠ "" ∧ Text.alike front schema.id = true ∧
      Text.byteSize front.toList = Text.byteSize schema.id.toList := by
  rw [unqualified] at h
  split at h
  case h_2 => exact absurd h.symm hne
  case h_1 c back hdrop =>
      split at h
      case isFalse => exact absurd h.symm hne
      case isTrue halike =>
          subst h
          refine ⟨_, ?_, ?_, halike, ?_⟩
          · rw [← String.toList_inj]
            have hsplit := List.take_append_drop schema.id.length path.toList
            rw [hdrop] at hsplit
            simpa using hsplit.symm
          · simp
          · exact Text.byteSize_eq_of_alike halike

/-- What is like the identifier, a colon and something behind it is looked up as that. -/
theorem unqualified_of_alike {rest : String} (hne : rest ≠ "")
    (h : Text.alike path (schema.id ++ ":" ++ rest) = true) :
    Text.alike (schema.unqualified path) rest = true := by
  have hfolded : path.toList.map Char.toLower =
      schema.id.toList.map Char.toLower ++ (':' :: rest.toList.map Char.toLower) := by
    simpa [Text.folded] using Text.alike_iff.mp h
  obtain ⟨front, back, hpath, hfront, hback⟩ := List.map_eq_append_iff.mp hfolded
  obtain ⟨c, tail, rfl, hc, htail⟩ := List.map_eq_cons_iff.mp hback
  obtain rfl := Text.eq_of_toLower (by decide) hc
  have htail' : tail ≠ [] := by
    rintro rfl
    exact hne (by simpa using htail.symm)
  have halike : Text.alike (String.ofList front) schema.id = true := by
    rw [Text.alike_iff, Text.folded, String.toList_ofList, hfront, Text.folded]
  rw [unqualified_of_cut hpath htail' halike, Text.alike_iff, Text.folded, String.toList_ofList,
    htail, Text.folded]

/-- A path loses something exactly if it starts with the identifier, in any case, and a colon. -/
theorem unqualified_iff {rest : String} : (schema.unqualified path = rest ∧ rest ≠ path) ↔
    ∃ front, path = front ++ ":" ++ rest ∧ rest ≠ "" ∧ Text.alike front schema.id = true ∧
      Text.byteSize front.toList = Text.byteSize schema.id.toList := by
  constructor
  · rintro ⟨hrest, hne⟩
    exact cut_of_unqualified hrest hne
  · rintro ⟨front, rfl, hrest, halike, _⟩
    have hpath : (front ++ ":" ++ rest).toList = front.toList ++ ':' :: rest.toList := by simp
    have hcut : schema.unqualified (front ++ ":" ++ rest) = String.ofList rest.toList :=
      unqualified_of_cut hpath (by simpa using hrest) (by simpa using halike)
    refine ⟨hcut.trans String.ofList_toList, fun hsame => ?_⟩
    have hlength := congrArg String.length hsame
    simp only [String.length_append] at hlength
    have hcolon : ":".length = 1 := rfl
    omega

/-! ## Look-up -/

/-- The full path of an attribute finds it, in any case. -/
theorem attribute?_of_fullPath (h : schema.Accepted) (hne : chain ≠ [])
    (ha : follow schema.root chain = some a) (hpath : Text.alike path a.fullPath = true) :
    schema.attribute? path = some a := by
  rw [h.fullPath_eq hne ha] at hpath
  have hdropped := unqualified_of_alike (h.path_ne_empty hne ha) hpath
  rw [attribute?, Text.alike_iff_lowered.mp hdropped, lookup_index h hne ha]
  exact ha

/-- What is found is an attribute of the schema that has the path. -/
theorem path_of_attribute? (h : schema.Accepted) (hfound : schema.attribute? path = some a) :
    (∃ chain, chain ≠ [] ∧ follow schema.root chain = some a) ∧
      Text.alike (schema.unqualified path) a.path = true := by
  rw [attribute?] at hfound
  split at hfound
  case h_2 => cases hfound
  case h_1 chain hlookup =>
      obtain ⟨front, back, hentries, _⟩ := List.lookup_eq_some_iff.mp hlookup
      have hmem : (Text.lowered (schema.unqualified path), chain) ∈ schema.index := by
        simp [hentries]
      obtain ⟨hne, b, hb, hkey⟩ := (mem_index_iff h).mp hmem
      obtain rfl := Option.some.inj (hb.symm.trans hfound)
      exact ⟨⟨chain, hne, hb⟩, Text.alike_iff_lowered.mpr hkey⟩

/-- Under every accepted schema, the full path of an attribute finds exactly it, in any case, and
a path finds nothing but the attribute whose path it is, once the identifier in front of it is
dropped.  No two attributes have one key, and every chain of the index leads to its attribute. -/
theorem attribute?_exact (h : schema.Accepted) :
    (∀ chain a, chain ≠ [] → follow schema.root chain = some a →
      ∀ path, Text.alike path a.fullPath = true → schema.attribute? path = some a) ∧
    (∀ path a, schema.attribute? path = some a →
      (∃ chain, chain ≠ [] ∧ follow schema.root chain = some a) ∧
        Text.alike (schema.unqualified path) a.path = true) ∧
    (∀ path rest, (schema.unqualified path = rest ∧ rest ≠ path) ↔
      ∃ front, path = front ++ ":" ++ rest ∧ rest ≠ "" ∧ Text.alike front schema.id = true ∧
        Text.byteSize front.toList = Text.byteSize schema.id.toList) ∧
    (∀ chain chain' a b, chain ≠ [] → chain' ≠ [] → follow schema.root chain = some a →
      follow schema.root chain' = some b → Text.lowered a.path = Text.lowered b.path →
      chain = chain') ∧
    ∀ key chain, (key, chain) ∈ schema.index ↔
      chain ≠ [] ∧ ∃ a, follow schema.root chain = some a ∧ key = Text.lowered a.path := by
  refine ⟨?_, fun path a => path_of_attribute? h, fun path rest => unqualified_iff, ?_,
    fun key chain => mem_index_iff h⟩
  · intro chain a hne ha path hpath
    exact attribute?_of_fullPath h hne ha hpath
  · intro chain chain' a b hne hne' ha hb hpath
    exact h.chain_eq_of_path hne hne' ha hb (Text.alike_iff_lowered.mpr hpath)

/-- In the schema of groups, the identifier of a member is found by its full path in capitals. -/
theorem attribute?_exact_group :
    let path := "URN:IETF:PARAMS:SCIM:SCHEMAS:CORE:2.0:GROUP:MEMBERS.VALUE"
    group.Accepted ∧ ∃ a, follow group.root [1, 0] = some a ∧ Text.alike path a.fullPath = true ∧
      group.attribute? path = some a ∧ Text.alike (group.unqualified path) a.path = true := by
  intro path
  have hgroup : group.Accepted := .built build_group
  obtain ⟨hfind, hfound, _⟩ := attribute?_exact hgroup
  obtain ⟨a, ha, hfull⟩ : ∃ a, follow group.root [1, 0] = some a ∧
      a.fullPath = groupId ++ ":members.value" := ⟨_, rfl, by decide +kernel⟩
  have hpath : Text.alike path a.fullPath = true := by
    rw [hfull]
    decide +kernel
  have hattribute := hfind [1, 0] a (List.cons_ne_nil _ _) ha path hpath
  exact ⟨hgroup, a, ha, hpath, hattribute, (hfound path a hattribute).2⟩

end Schema

end Scim
