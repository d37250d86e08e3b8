import Scim.Proofs.Evaluation.Collected
import Scim.Proofs.Patch.Descent
import Scim.Proofs.Path.Brackets
import Scim.Service

/-!
# The readings of a value filter

The text `emails[type eq "work"]` is a path and a filter.  The path selects the elements that the
filter in brackets accepts on their own (`resolve_bracket`), and a change at that path is made to
the same elements (`apply_bracket`).

The filter is spliced.  Every path in brackets gets the outer path in front of it, so every test
looks at the values of all elements together (`accepts_under`).  With two tests joined by `and` a
resource can therefore match although no element has been selected.
-/

namespace Scim

open Scim.Filter (Operator Token Tree)

/-- The text of an attribute with a filter in brackets behind it. -/
def Attribute.bracket (a : Attribute) (text : String) : String := a.name ++ "[" ++ text ++ "]"

/-- A filter over the single-valued simple sub-attributes of an attribute, its tokens and tree. -/
structure ValueFilter (a : Attribute) (text : String) (ts : List Token) (tree : Tree) : Prop where
  size : text.utf8ByteSize ≤ Filter.defaultMaxLength
  tokens : Filter.tokenize text = .ok ts
  flat : ∀ t ∈ ts, t.kind ≠ .nestedPath
  names : ∀ t ∈ ts, t.kind = .path →
    Path.compile Filter.defaultMaxLength t.text = .ok [.name t.text] ∧ a.NamesSimple t.text
  parsed : Filter.parse ts = .ok tree

/-- An array of objects. -/
def AreObjects (items : List Json) : Prop := ∀ v ∈ items, ∃ members, v = .object members

/-- An array of objects and `null`. -/
def AreElements (items : List Json) : Prop :=
  ∀ v ∈ items, v = .null ∨ ∃ members, v = .object members

variable {root a s : Attribute} {members : Members} {items : List Json} {name path text : String}
  {ts : List Token} {tree : Tree} {limit : Nat}

/-! ## Steps to values -/

namespace Path

variable {accept : Acceptance}

theorem descendIntoAll_elements (hs : a.sub? name = some s) (helements : AreElements items) :
    descendIntoAll path name (descend accept path []) a items = .ok (s.valuesIn items) := by
  induction items with
  | nil => rfl
  | cons v rest ih =>
      obtain ⟨hv, hrest⟩ := List.forall_mem_cons.mp helements
      rcases hv with rfl | ⟨members, rfl⟩
      · rw [descendIntoAll, ih hrest]
        rfl
      · rw [descendIntoAll, descendInto_object hs [], ih hrest]
        rfl

/-- What a name leads to in an object. -/
theorem follow_name :
    (follow accept path [.name name] a (.object members)).toOption =
      a.within (.object members) name := by
  rw [Attribute.within]
  cases hs : a.sub? name with
  | none =>
      rw [follow_missing hs]
      rfl
  | some s =>
      rw [follow_object hs]
      rfl

/-- What a name leads to in an array of objects and `null`. -/
theorem follow_elements (hs : a.sub? name = some s) (helements : AreElements items) :
    follow accept path [.name name] a (.array items) = .ok ⟨.array (s.valuesIn items), s⟩ := by
  rw [follow, target_cons hs, target, descend, descendInto, descendIntoAll_elements hs helements]
  rfl

theorem follow_array (hs : a.sub? name = some s) (hobjects : AreObjects items) :
    follow accept path [.name name] a (.array items) = .ok ⟨.array (s.valuesIn items), s⟩ :=
  follow_elements hs fun v hv => .inr (hobjects v hv)

/-- What a name below an array leads to. -/
theorem follow_member (ha : root.sub? a.name = some a)
    (hitems : Members.named? members a.name = some (.array items)) (hobjects : AreObjects items) :
    (follow accept path [.name a.name, .name name] root (.object members)).toOption =
      a.across items name := by
  rw [follow_object ha, Members.valueOf_of_named? hitems, Attribute.across]
  cases hs : a.sub? name with
  | none =>
      rw [follow_missing hs]
      rfl
  | some s =>
      rw [follow_array hs hobjects]
      rfl

end Path

/-! ## Acceptance -/

namespace ValueFilter

theorem forall_of_tokens (h : ValueFilter a text ts tree) {p : Token → Prop}
    (hp : ∀ t ∈ ts, p t) : tree.Forall p :=
  Filter.forall_of_parse h.parsed h.flat hp

theorem overSimple (h : ValueFilter a text ts tree) : tree.Over a :=
  h.forall_of_tokens fun t ht hkind => (h.names t ht hkind).2

/-- A path in brackets is written as it is. -/
theorem isPlain (h : ValueFilter a text ts tree) : ∀ t ∈ ts, t.IsPlain :=
  (Filter.unbracketed_of_tokenize h.tokens h.flat).2

/-- Whether an element is accepted depends on what its own members are. -/
theorem accepts_element (h : ValueFilter a text ts tree) :
    tree.accepts a.element (.object members) = tree.eval (a.within (.object members)) := by
  rw [Filter.Tree.accepts, Filter.Tree.acceptsWithin]
  refine Filter.Tree.eval_congr (h.forall_of_tokens fun t ht hkind => ?_)
  rw [Filter.Tree.resolveBy, (h.names t ht hkind).1]
  show (Path.follow _ _ [.name t.text] a.element (.object members)).toOption = _
  rw [Path.follow_name, Attribute.within, Attribute.sub?_element]
  rfl

/-- Whether the spliced filter accepts a resource depends on the values of all elements. -/
theorem accepts_under (h : ValueFilter a text ts tree) (hname : Path.IsName a.name.toList)
    (ha : root.sub? a.name = some a)
    (hitems : Members.named? members a.name = some (.array items)) (hobjects : AreObjects items) :
    (tree.under a.name).accepts root (.object members) = tree.eval (a.across items) := by
  rw [Filter.Tree.accepts, Filter.Tree.acceptsWithin,
    Filter.Tree.eval_under _ (h.forall_of_tokens h.isPlain)]
  refine Filter.Tree.eval_congr (h.forall_of_tokens fun t ht hkind => ?_)
  have ht := Path.isName_of_compile (h.names t ht hkind).1
  rw [Filter.Tree.resolveBy, Path.compile_member hname ht]
  exact Path.follow_member ha hitems hobjects

/-! ## Brackets -/

/-- The text of a filter in brackets is read as the spliced filter. -/
theorem read_bracket (h : ValueFilter a text ts tree)
    (hname : Filter.tokenize a.name = .ok [.path a.name])
    (hsize : (a.bracket text).utf8ByteSize ≤ limit) :
    Filter.read limit (a.bracket text) = .ok (tree.under a.name) := by
  rw [Filter.read, if_neg (Nat.not_lt.mpr hsize), Attribute.bracket,
    Filter.tokenize_bracket hname h.tokens h.flat]
  exact Filter.parse_bracket h.parsed h.flat h.isPlain

theorem read (h : ValueFilter a text ts tree) (hsize : text.utf8ByteSize ≤ limit) :
    Filter.read limit text = .ok tree := by
  rw [Filter.read, if_neg (Nat.not_lt.mpr hsize), h.tokens]
  exact h.parsed

/-- The text of a filter in brackets is a path of a name and a filter. -/
theorem compile_bracket (h : ValueFilter a text ts tree) (hname : Path.IsName a.name.toList)
    (hsize : text.utf8ByteSize ≤ limit) :
    Path.compile limit (a.bracket text) = .ok [.name a.name, .filter tree] :=
  Path.compile_bracket hname (Filter.unbracketed_of_tokenize h.tokens h.flat).1 (h.read hsize)

/-- A filter in brackets selects the elements that it accepts. -/
theorem resolve_bracket (h : ValueFilter a text ts tree) (hname : Path.IsName a.name.toList)
    (ha : root.sub? a.name = some a) (hmulti : a.multiValued = true)
    (hitems : Members.named? members a.name = some (.array items)) :
    Path.resolve (a.bracket text) root (.object members) =
      .ok ⟨.array (items.filter (tree.accepts a.element)), a⟩ := by
  rw [Path.resolve, Filter.Tree.resolveBy, h.compile_bracket hname h.size]
  exact Path.follow_filter ha hmulti (Members.valueOf_of_named? hitems)

/-- A change at a filter in brackets is made to the elements that it accepts. -/
theorem apply_bracket (h : ValueFilter a text ts tree) (hname : Path.IsName a.name.toList)
    (ha : root.sub? a.name = some a) (hsize : text.utf8ByteSize ≤ limit)
    (hitems : Members.named? members a.name = some (.array items)) (verb : Patch.Verb)
    (value : Json) :
    Patch.Operation.apply limit root members ⟨verb, some (a.bracket text), value⟩ =
      (Patch.Context.changeElements ⟨verb, a.bracket text, value⟩ true (tree.accepts a.element)
        items).map fun changed => members.put (members.slot a.name) (.array changed) := by
  have htrim : Text.trim (a.bracket text).toList = (a.bracket text).toList :=
    Path.trim_bracket hname text
  rw [Patch.Operation.apply_of_compile htrim (h.compile_bracket hname hsize)]
  exact Patch.Context.along_array ha (Members.valueOf_of_named? hitems) (.filter tree) []

end ValueFilter

/-! ## Selected elements and matching resources -/

/-- A filter in brackets selects, as a path and for changes, the elements that it accepts.  As a
filter of resources it looks at the values of all elements together.  It then matches if an element
is selected, where it joins tests by `or`; where it joins them by `and` too it matches at least
then; and for one element there is no difference. -/
theorem Service.accepts_bracket {schema : Schema} {r : Resource} (h : schema.Accepted)
    (ha : a ∈ schema.attributes) (hmulti : a.multiValued = true)
    (htoken : Filter.tokenize a.name = .ok [.path a.name])
    (hname : Path.compile Filter.defaultMaxLength a.name = .ok [.name a.name])
    (hfilter : ValueFilter a text ts tree) (hsize : (a.bracket text).utf8ByteSize ≤ limit)
    (hitems : r.members.named? a.name = some (.array items)) (hobjects : AreObjects items) :
    Path.resolve (a.bracket text) schema.root r.toJson =
        .ok ⟨.array (items.filter (tree.accepts a.element)), a⟩ ∧
      (∀ verb value,
        Patch.Operation.apply limit schema.root r.members ⟨verb, some (a.bracket text), value⟩ =
          (Patch.Context.changeElements ⟨verb, a.bracket text, value⟩ true
            (tree.accepts a.element) items).map fun changed =>
              r.members.put (r.members.slot a.name) (.array changed)) ∧
      ∃ whole, Filter.read limit (a.bracket text) = .ok whole ∧
        accepts schema whole r = tree.eval (a.across items) ∧
        (tree.Seeks (· = .or) →
          (accepts schema whole r = true ↔ ∃ v ∈ items, tree.accepts a.element v = true)) ∧
        (tree.Seeks (· ≠ .not) → (∃ v ∈ items, tree.accepts a.element v = true) →
          accepts schema whole r = true) ∧
        (tree.Seeks (fun _ => True) → ∀ v, items = [v] →
          accepts schema whole r = tree.accepts a.element v) := by
  have hsub := h.sound.sub?_of_mem ha
  have hname := Path.isName_of_compile hname
  have htext : text.utf8ByteSize ≤ limit := by
    refine le_trans ?_ hsize
    simp only [Attribute.bracket, String.utf8ByteSize_append]
    omega
  have hwhole : accepts schema (tree.under a.name) r = tree.eval (a.across items) :=
    hfilter.accepts_under hname hsub hitems hobjects
  have helement : ∀ v ∈ items, tree.accepts a.element v = tree.eval (a.within v) := by
    intro v hv
    obtain ⟨members, rfl⟩ := hobjects v hv
    exact hfilter.accepts_element
  refine ⟨hfilter.resolve_bracket hname hsub hmulti hitems,
    hfilter.apply_bracket hname hsub htext hitems,
    tree.under a.name, hfilter.read_bracket htoken hsize, hwhole, ?_, ?_, ?_⟩
  · intro hseeks
    rw [hwhole, Filter.Tree.eval_across_iff hfilter.overSimple hseeks]
    exact exists_congr fun v => and_congr_right fun hv => by rw [helement v hv]
  · rintro hseeks ⟨v, hv, htrue⟩
    rw [hwhole]
    rw [helement v hv] at htrue
    exact Filter.Tree.eval_across hfilter.overSimple hseeks hv htrue
  · rintro hseeks v rfl
    rw [hwhole, helement v List.mem_cons_self]
    exact Filter.Tree.eval_across_singleton hfilter.overSimple hseeks

/-! ## Two mail addresses -/

/-- The attribute of the mail addresses of a user. -/
def Schema.emails : Attribute := (user.root.sub? "emails").getD default

theorem Schema.sub?_emails : user.root.sub? emails.name = some emails := rfl

theorem Schema.mem_emails : emails ∈ user.attributes := (Attribute.mem_of_sub? sub?_emails).1

/-- Their name is read as one name. -/
theorem Schema.compile_emails :
    Path.compile Filter.defaultMaxLength emails.name = .ok [.name emails.name] := rfl

/-- Two mail addresses, of which one is for work and the other is primary. -/
def twoAddresses : List Json :=
  [.object [("primary", .bool false), ("type", .string "work")],
    .object [("primary", .bool true), ("type", .string "home")]]

theorem areObjects_twoAddresses : AreObjects twoAddresses :=
  List.forall_mem_cons.mpr ⟨⟨_, rfl⟩, List.forall_mem_singleton.mpr ⟨_, rfl⟩⟩

/-- The user of the two addresses. -/
def userOfTwo : Resource := ⟨[("emails", .array twoAddresses)]⟩

theorem named?_userOfTwo :
    userOfTwo.members.named? Schema.emails.name = some (.array twoAddresses) := rfl

/-- A test of the type and a test of the preference under an operator. -/
def workPrimary (op : Operator) : Tree :=
  .node (.ofOperator op.keyword op)
    (.node (.ofOperator "eq" .eq) (.leaf (.path "type"))
      (.leaf ⟨"\"work\"", .constant, .constant (.string "work")⟩))
    (.node (.ofOperator "eq" .eq) (.leaf (.path "primary"))
      (.leaf ⟨"true", .constant, .constant (.boolean true)⟩))

/-- The tokens of the two tests. -/
def workPrimaryTokens (op : Operator) : List Token :=
  [.path "type", .ofOperator "eq" .eq, ⟨"\"work\"", .constant, .constant (.string "work")⟩,
    .ofOperator op.keyword op, .path "primary", .ofOperator "eq" .eq,
    ⟨"true", .constant, .constant (.boolean true)⟩]

/-- The text of the two tests. -/
def workPrimaryText (op : Operator) : String :=
  "type eq \"work\" " ++ op.keyword ++ " primary eq true"

theorem valueFilter_workPrimary {op : Operator} (hop : op = .and ∨ op = .or) :
    ValueFilter Schema.emails (workPrimaryText op) (workPrimaryTokens op) (workPrimary op) := by
  have hpaths : (workPrimaryTokens op).filter (fun t => t.kind = .path) =
      [.path "type", .path "primary"] := by
    rcases hop with rfl | rfl <;> rfl
  have hnames : ∀ t ∈ [Token.path "type", .path "primary"],
      Path.compile Filter.defaultMaxLength t.text = .ok [.name t.text] ∧
        Schema.emails.NamesSimple t.text :=
    List.forall_mem_cons.mpr ⟨⟨rfl, _, rfl, rfl, rfl⟩,
      List.forall_mem_singleton.mpr ⟨rfl, _, rfl, rfl, rfl⟩⟩
  have hpath : ∀ t ∈ workPrimaryTokens op, t.kind = .path →
      t ∈ [.path "type", .path "primary"] := by
    intro t ht hkind
    rw [← hpaths]
    exact List.mem_filter.mpr ⟨ht, decide_eq_true hkind⟩
  refine ⟨?_, ?_, ?_, fun t ht hkind => hnames t (hpath t ht hkind), ?_⟩
  · rcases hop with rfl | rfl <;> decide +kernel
  · rcases hop with rfl | rfl <;> rfl
  · rcases hop with rfl | rfl <;> decide
  · rcases hop with rfl | rfl <;> rfl

/-- Joined by `or`, the tests select both addresses, one for its type and one for its preference,
and the user matches. -/
theorem Service.accepts_bracket_workOrPrimary :
    Path.resolve (Schema.emails.bracket (workPrimaryText .or)) Schema.user.root userOfTwo.toJson =
        .ok ⟨.array twoAddresses, Schema.emails⟩ ∧
      ∃ whole, Filter.read Filter.defaultMaxLength (Schema.emails.bracket (workPrimaryText .or)) =
          .ok whole ∧ accepts Schema.user whole userOfTwo = true := by
  have hsize : (Schema.emails.bracket (workPrimaryText .or)).utf8ByteSize ≤
      Filter.defaultMaxLength := by decide +kernel
  obtain ⟨hresolve, _, whole, hread, _, hor, _, _⟩ :=
    accepts_bracket (.built Schema.build_user) Schema.mem_emails rfl rfl Schema.compile_emails
      (valueFilter_workPrimary (Or.inr rfl)) hsize named?_userOfTwo areObjects_twoAddresses
  have hall : ∀ v ∈ twoAddresses, (workPrimary .or).accepts Schema.emails.element v = true := by
    decide +kernel
  have hseeks : (workPrimary .or).Seeks (· = .or) := by
    refine .join rfl rfl rfl ?_ ?_
    · exact .test rfl rfl (by decide) (by decide)
    · exact .test rfl rfl (by decide) (by decide)
  have hmatch := (hor hseeks).mpr ⟨_, List.mem_cons_self, hall _ List.mem_cons_self⟩
  rw [List.filter_eq_self.mpr hall] at hresolve
  exact ⟨hresolve, whole, hread, hmatch⟩

/-- Joined by `and`, the tests select no address, since one is for work and the other is primary,
but the user matches. -/
theorem Service.accepts_unselected_workAndPrimary :
    ValueFilter Schema.emails (workPrimaryText .and) (workPrimaryTokens .and) (workPrimary .and) ∧
      Schema.emails ∈ Schema.user.attributes ∧ Schema.emails.multiValued = true ∧
      Schema.emails.isComplex = true ∧
      Filter.tokenize Schema.emails.name = .ok [.path Schema.emails.name] ∧
      userOfTwo.members.named? Schema.emails.name = some (.array twoAddresses) ∧
      AreObjects twoAddresses ∧
      (∃ whole, Filter.read Filter.defaultMaxLength
          (Schema.emails.bracket (workPrimaryText .and)) = .ok whole ∧
        accepts Schema.user whole userOfTwo = true) ∧
      (∀ v ∈ twoAddresses, (workPrimary .and).accepts Schema.emails.element v = false) ∧
      Path.resolve (Schema.emails.bracket (workPrimaryText .and)) Schema.user.root
        userOfTwo.toJson = .ok ⟨.array [], Schema.emails⟩ := by
  have hfilter := valueFilter_workPrimary (Or.inl rfl)
  have hread : Filter.read Filter.defaultMaxLength (Schema.emails.bracket (workPrimaryText .and)) =
      .ok ((workPrimary .and).under "emails") :=
    hfilter.read_bracket rfl (by decide +kernel)
  have hnone : ∀ v ∈ twoAddresses,
      (workPrimary .and).accepts Schema.emails.element v = false := by
    decide +kernel
  have hresolve := hfilter.resolve_bracket (Path.isName_of_compile Schema.compile_emails)
    Schema.sub?_emails rfl named?_userOfTwo
  have hempty : twoAddresses.filter ((workPrimary .and).accepts Schema.emails.element) = [] :=
    List.filter_eq_nil_iff.mpr fun v hv => by simp [hnone v hv]
  rw [hempty] at hresolve
  exact ⟨hfilter, Schema.mem_emails, rfl, rfl, rfl, named?_userOfTwo,
    areObjects_twoAddresses,
    ⟨_, hread, by decide +kernel⟩, hnone, hresolve⟩

end Scim
