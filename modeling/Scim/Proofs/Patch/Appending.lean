import Mathlib.Data.List.Induction
import Scim.Proofs.Patch.Addition
import Scim.Proofs.Patch.Readback

/-!
# Appending to an array

An addition to a multi-valued attribute makes a union of what is there and what is added.  The old
items stay in front, and behind them come, in order, the added values that equal no old item and no
value added before them (`novel`).  So every added value is there, and an array without repetitions
stays without.

The loop looks for each value in the array that it has made so far.  That is the same, because what
it has appended before are the values added before, up to equality (`contains_appendAllNew`), and
equality of values is an equivalence.

The array is read back at the path of the addition (`Operation.resolve_appended`).  The names of the
path go through objects (`ThroughObjects`), which the addition makes where there are none.
-/

namespace Scim

namespace Json

/-- Values of which no two are equal. -/
def Distinct (items : List Json) : Prop := items.Pairwise fun v w => (v == w) = false

end Json

namespace Patch

variable {items added : List Json} {v w : Json}

/-! ## The union -/

/-- The added values that equal none of the items and no value added before them. -/
def novel (items added : List Json) : List Json :=
  (added.zipIdx.filter fun p => !items.contains p.1 && !(added.take p.2).contains p.1).map (·.1)

theorem appendAllNew_snoc (items added : List Json) (v : Json) :
    appendAllNew items (added ++ [v]) = appendNew (appendAllNew items added) v :=
  List.foldl_concat ..

theorem novel_snoc (items added : List Json) (v : Json) :
    novel items (added ++ [v]) =
      novel items added ++ (if items.contains v || added.contains v then [] else [v]) := by
  have hfront : (added.zipIdx.filter fun p =>
      !items.contains p.1 && !((added ++ [v]).take p.2).contains p.1) =
      added.zipIdx.filter fun p => !items.contains p.1 && !(added.take p.2).contains p.1 := by
    refine List.filter_congr fun p hp => ?_
    have hlt : p.2 < added.length := (List.mem_zipIdx' hp).1
    rw [List.take_append_of_le_length (Nat.le_of_lt hlt)]
  rw [novel, List.zipIdx_append, List.filter_append, List.map_append, hfront]
  congr 1
  simp only [List.zipIdx_cons, List.zipIdx_nil, List.filter_cons, List.filter_nil, Nat.zero_add,
    List.take_left]
  cases items.contains v <;> cases added.contains v <;> rfl

/-- The old items are followed by the added values that are new. -/
theorem appendAllNew_eq (items added : List Json) :
    appendAllNew items added = items ++ novel items added := by
  induction added using List.reverseRecOn with
  | nil => exact (List.append_nil items).symm
  | append_singleton added v ih =>
      rw [appendAllNew_snoc, appendNew, contains_appendAllNew, novel_snoc, ih]
      split
      · rw [List.append_nil]
      · rw [List.append_assoc]

theorem distinct_appendNew (h : Json.Distinct items) (v : Json) :
    Json.Distinct (appendNew items v) := by
  unfold appendNew
  split
  case isTrue => exact h
  case isFalse hnew =>
      refine List.pairwise_append.mpr ⟨h, List.pairwise_singleton _ _, fun u hu w hw => ?_⟩
      rw [List.mem_singleton.mp hw, Json.beq_comm]
      rw [List.contains_eq_any_beq, Bool.not_eq_true, List.any_eq_false] at hnew
      simpa using hnew u hu

/-- A union with an array without repetitions has none. -/
theorem distinct_appendAllNew (h : Json.Distinct items) (added : List Json) :
    Json.Distinct (appendAllNew items added) := by
  induction added generalizing items with
  | nil => exact h
  | cons v rest ih => exact ih (distinct_appendNew h v)

/-! ## The way to the array -/

/-- A name and those after it lead from an attribute with the given members to an attribute below it
through objects, which an addition makes for single-valued attributes without a value.  Below a
multi-valued attribute without a value it has nothing to do. -/
inductive ThroughObjects : Attribute → Members → String → List String → Attribute → Prop where
  | last {a t : Attribute} {members : Members} {name : String} (ht : a.sub? name = some t) :
      ThroughObjects a members name [] t
  | through {a s t : Attribute} {members inner : Members} {name next : String}
      {rest : List String} (hs : a.sub? name = some s)
      (hopens : Opens .add (members.valueOf s.name) inner)
      (hsingle : members.valueOf s.name = .null → s.multiValued = false)
      (h : ThroughObjects s inner next rest t) : ThroughObjects a members name (next :: rest) t

variable {a s t : Attribute} {members changed inner : Members} {name : String}
  {rest : List String}

/-- An addition to a multi-valued attribute puts the union into its slot. -/
theorem sum_multiValued (hmulti : t.multiValued = true) (v : Json) (members : Members) :
    sum t v (members.named? t.name) =
      .array (appendAllNew ((members.valueOf t.name).array?.getD []) (incoming v)) := by
  rw [sum, if_pos hmulti, Members.valueOf]
  cases members.named? t.name <;> rfl

namespace Context

variable {c : Context}

/-- What an addition opens on its way through objects. -/
theorem openSlot_through {slot : Slot} (hverb : c.verb = .add) (hopens : Opens .add v inner)
    (hsingle : v = .null → s.multiValued = false) (h : c.openSlot s v = .ok slot) :
    slot = .value (.object inner) := by
  cases hopens with
  | held => exact (Except.ok.inj h).symm
  | made =>
      cases hcomplex : s.isComplex with
      | true =>
          have hmade : Opens c.verb .null [] := by
            rw [hverb]
            exact .made
          rw [openSlot_of_opens (hsingle rfl) hcomplex hmade] at h
          exact (Except.ok.inj h).symm
      | false =>
          rw [openSlot, hverb] at h
          simp [Json.isNull, hsingle rfl, hcomplex] at h

/-- An addition that goes on in an object puts back what it makes there. -/
theorem exists_of_along_through {next : Path.Step} {steps : List Path.Step}
    (hverb : c.verb = .add) (hs : a.sub? name = some s)
    (hopens : Opens .add (members.valueOf s.name) inner)
    (hsingle : members.valueOf s.name = .null → s.multiValued = false)
    (h : c.along a members (.name name) (next :: steps) = .ok changed) :
    ∃ made, c.along s inner next steps = .ok made ∧
      changed = members.put (members.slot s.name) (.object made) := by
  rw [along_cons hs] at h
  obtain ⟨slot, hopen, h⟩ := ok_of_bind h
  cases openSlot_through hverb hopens hsingle hopen
  obtain ⟨made, hmade, h⟩ := ok_of_bind h
  exact ⟨made, hmade, (Except.ok.inj h).symm⟩

/-- The names of an addition lead to the array before it and to the union after it. -/
theorem follow_appended (hverb : c.verb = .add) (h : ThroughObjects a members name rest t)
    (hmulti : t.multiValued = true)
    (hchanged : c.along a members (.name name) (rest.map .name) = .ok changed) :
    ∃ found, ∀ (accept : Path.Acceptance) (path : String),
      Path.follow accept path ((name :: rest).map .name) a (.object members) = .ok ⟨found, t⟩ ∧
        Path.follow accept path ((name :: rest).map .name) a (.object changed) =
          .ok ⟨.array (appendAllNew (found.array?.getD []) (incoming c.value)), t⟩ := by
  induction h generalizing changed with
  | @last a t members name ht =>
      obtain ⟨_, s, hname, hs, _, rfl⟩ := (last_iff hverb).mp hchanged
      cases hname
      rw [ht] at hs
      cases hs
      refine ⟨members.valueOf t.name, fun accept path => ⟨?_, ?_⟩⟩
      · exact Path.follow_object ht []
      · dsimp only [Update.on]
        rw [sum_multiValued hmulti]
        exact follow_put_slot ht []
  | @through a s t members inner name next rest hs hopens hsingle _ ih =>
      obtain ⟨made, hmade, rfl⟩ := exists_of_along_through hverb hs hopens hsingle hchanged
      obtain ⟨found, hfound⟩ := ih hmulti hmade
      refine ⟨found, fun accept path => ?_⟩
      obtain ⟨hbefore, hafter⟩ := hfound accept path
      constructor
      · rw [List.map_cons, Path.follow_object hs, ← hopens.follow_eq (List.cons_ne_nil _ _)]
        exact hbefore
      · rw [List.map_cons, follow_put_slot hs]
        exact hafter

end Context

/-- An addition to a multi-valued attribute at a path through objects keeps the array that is there,
which is empty if there is none, and puts the new ones of the added values behind it.  Then it holds
every added value, and no two of its items are equal if no two of the old ones are. -/
theorem Operation.resolve_appended {o : Operation} {limit : Nat} {schema : Schema} {r : Resource}
    (hverb : o.verb = .add)
    (hcompile : Path.compile limit o.place = .ok ((name :: rest).map .name))
    (hthrough : ThroughObjects schema.root r.members name rest t) (hmulti : t.multiValued = true)
    (h : o.apply limit schema.root r.members = .ok changed) :
    ∃ found, Path.resolve o.place schema.root r.toJson = .ok ⟨found, t⟩ ∧
      let old := found.array?.getD []
      let new := old ++ novel old (incoming o.value)
      Path.resolve o.place schema.root (Resource.toJson ⟨changed⟩) = .ok ⟨.array new, t⟩ ∧
        old <+: new ∧ (∀ v ∈ incoming o.value, new.contains v = true) ∧
        (Json.Distinct old → Json.Distinct new) := by
  rw [apply_along hcompile] at h
  obtain ⟨found, hfound⟩ := Context.follow_appended hverb hthrough hmulti h
  obtain ⟨hbefore, hafter⟩ := hfound Filter.Tree.accepts o.place
  have hsteps := Path.compile_of_names Filter.defaultMaxLength hcompile
  refine ⟨found, ?_, ?_⟩
  · rw [Path.resolve, Filter.Tree.resolveBy, hsteps]
    exact hbefore
  · intro old new
    have hunion : appendAllNew old (incoming o.value) = new := appendAllNew_eq _ _
    refine ⟨?_, List.prefix_append _ _, fun v hv => ?_, fun hdistinct => ?_⟩
    · rw [Path.resolve, Filter.Tree.resolveBy, hsteps, ← hunion]
      exact hafter
    · rw [← hunion, contains_appendAllNew, contains_of_mem hv, Bool.or_true]
    · rw [← hunion]
      exact distinct_appendAllNew hdistinct _

/-- Levels are added to a badge that has one of them.  The same number written with a fraction is
another value. -/
theorem Operation.resolve_appended_levels :
    let schema : Schema := .assemble "urn:badges" "Badge" none [{
      name := "badge"
      type := .complex
      subAttributes := [{ name := "levels", type := .decimal, multiValued := true }] }]
    let one : Json := .number (.integer 1)
    let fraction : Json := .number (.float ⟨false, 0x10000000000000, -52⟩)
    let o : Operation := ⟨.add, some " badge.LEVELS", .array [fraction, one, fraction]⟩
    let before : Members := [("badge", .object [("levels", .array [one])])]
    let after : Members := [("badge", .object [("levels", .array [one, fraction])])]
    ∃ t found, Path.compile Filter.defaultMaxLength o.place =
        .ok (["badge", "LEVELS"].map .name) ∧
      ThroughObjects schema.root before "badge" ["LEVELS"] t ∧ t.multiValued = true ∧
      o.apply Filter.defaultMaxLength schema.root before = .ok after ∧
      Path.resolve o.place schema.root (Resource.toJson ⟨before⟩) = .ok ⟨found, t⟩ ∧
      Path.resolve o.place schema.root (Resource.toJson ⟨after⟩) =
        .ok ⟨.array (found.array?.getD [] ++
          novel (found.array?.getD []) [fraction, one, fraction]), t⟩ := by
  intro schema one fraction o before after
  have hcompile : Path.compile Filter.defaultMaxLength o.place =
      .ok (["badge", "LEVELS"].map .name) := by
    have hplace : o.place = "badge.LEVELS" := by decide +kernel
    rw [hplace]
    rfl
  obtain ⟨t, hthrough, hmulti⟩ : ∃ t, ThroughObjects schema.root before "badge" ["LEVELS"] t ∧
      t.multiValued = true :=
    ⟨_, .through rfl (.held _ _) nofun (.last rfl), rfl⟩
  have hafter : o.apply Filter.defaultMaxLength schema.root before = .ok after := by
    rw [apply_along hcompile]
    rfl
  obtain ⟨found, hbefore, hnew, _⟩ :=
    resolve_appended (r := ⟨before⟩) rfl hcompile hthrough hmulti hafter
  exact ⟨t, found, hcompile, hthrough, hmulti, hafter, hbefore, hnew⟩

end Patch

end Scim
