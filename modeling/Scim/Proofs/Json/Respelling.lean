import Mathlib.Data.List.Forall2
import Scim.Proofs.Json.Footprint

/-!
# Values with their keys in another case

A value is *respelt* if the keys of its objects, at any depth, are written in another case and put
into order again (`Json.Respelt`).  In a value that has no two keys alike in an object
(`Json.KeyedOnce`) a name stands for at most one member.  So it stands for the same member, respelt,
whatever the case of the keys and wherever they come in order (`Members.named?_respelt`).
-/

namespace Scim

namespace Json

/-- The same value but for the case of the keys of its objects, and for the order that follows. -/
inductive Respelt : Json → Json → Prop where
  | null : Respelt .null .null
  | bool (b : Bool) : Respelt (.bool b) (.bool b)
  | number (n : Number) : Respelt (.number n) (.number n)
  | string (s : String) : Respelt (.string s) (.string s)
  | array {items items' : List Json} (values : List.Forall₂ Respelt items items') :
      Respelt (.array items) (.array items')
  | object {members renamed members' : Members}
      (keys : members.map (fun m => Text.folded m.1) = renamed.map fun m => Text.folded m.1)
      (values : List.Forall₂ Respelt (members.map Prod.snd) (renamed.map Prod.snd))
      (perm : renamed.Perm members') : Respelt (.object members) (.object members')

/-- A value that has no two keys that are alike in an object, at any depth. -/
inductive KeyedOnce : Json → Prop where
  | null : KeyedOnce .null
  | bool (b : Bool) : KeyedOnce (.bool b)
  | number (n : Number) : KeyedOnce (.number n)
  | string (s : String) : KeyedOnce (.string s)
  | array {items : List Json} (values : ∀ v ∈ items, KeyedOnce v) : KeyedOnce (.array items)
  | object {members : Members} (keys : members.DistinctKeys)
      (values : ∀ m ∈ members, KeyedOnce m.2) : KeyedOnce (.object members)

variable {v w : Json} {items : List Json} {members : Members}

theorem KeyedOnce.item (h : (Json.array items).KeyedOnce) : ∀ v ∈ items, v.KeyedOnce := by
  cases h with
  | array values => exact values

theorem KeyedOnce.distinct (h : (Json.object members).KeyedOnce) : members.DistinctKeys := by
  cases h with
  | object keys _ => exact keys

theorem KeyedOnce.member (h : (Json.object members).KeyedOnce) : ∀ m ∈ members, m.2.KeyedOnce := by
  cases h with
  | object _ values => exact values

/-- A member with its key in another case and its value respelt. -/
def RespeltMember (m n : String × Json) : Prop := Text.alike m.1 n.1 = true ∧ Respelt m.2 n.2

theorem forall₂_respeltMember {renamed : Members}
    (keys : members.map (fun m => Text.folded m.1) = renamed.map fun m => Text.folded m.1)
    (values : List.Forall₂ Respelt (members.map Prod.snd) (renamed.map Prod.snd)) :
    List.Forall₂ RespeltMember members renamed := by
  induction members generalizing renamed with
  | nil =>
      cases renamed with
      | nil => exact .nil
      | cons => cases keys
  | cons m rest ih =>
      cases renamed with
      | nil => cases keys
      | cons n rest' =>
          obtain ⟨hkey, hkeys⟩ := List.cons.inj keys
          obtain ⟨hvalue, hvalues⟩ := List.forall₂_cons.mp values
          exact .cons ⟨Text.alike_iff.mpr hkey, hvalue⟩ (ih hkeys hvalues)

theorem Respelt.isNull_eq (h : Respelt v w) : w.isNull = v.isNull := by
  cases h <;> rfl

end Json

namespace Members

open Json (Respelt RespeltMember)

variable {members renamed members' : Members} {name : String}

/-- The members under a name are respelt. -/
theorem forall₂_under (h : List.Forall₂ RespeltMember members renamed) (name : String) :
    List.Forall₂ RespeltMember (members.under name) (renamed.under name) := by
  induction h with
  | nil => exact .nil
  | @cons m n rest rest' hm _ ih =>
      have hsame : Text.alike n.1 name = Text.alike m.1 name := by
        rw [Text.alike, Text.alike, Text.alike_iff.mp hm.1]
      rw [under, under, List.filter_cons, List.filter_cons, hsame]
      split
      · exact .cons hm ih
      · exact ih

/-- A name stands for the same member, respelt, or for none. -/
theorem named?_respelt (hkeys : members.DistinctKeys)
    (h : List.Forall₂ RespeltMember members renamed) (perm : renamed.Perm members')
    (name : String) :
    (members.named? name = none ∧ members'.named? name = none) ∨
      ∃ m ∈ members, ∃ w, members.named? name = some m.2 ∧ members'.named? name = some w ∧
        Respelt m.2 w := by
  have hunder := forall₂_under h name
  have hperm : (renamed.under name).Perm (members'.under name) := perm.filter _
  rw [← named?_under members name, ← named?_under members' name]
  rcases hkeys.under_cases name with hnone | ⟨m, hone, hm⟩
  · rw [hnone, List.forall₂_nil_left_iff] at hunder
    rw [hunder, List.nil_perm] at hperm
    rw [hnone, hperm]
    exact .inl ⟨rfl, rfl⟩
  · rw [hone] at hunder
    obtain ⟨n, rest, ⟨hkey, hvalue⟩, hrest, hrenamed⟩ := List.forall₂_cons_left_iff.mp hunder
    obtain rfl := List.forall₂_nil_left_iff.mp hrest
    rw [hrenamed] at hperm
    have hn : Text.alike n.1 name = true :=
      Text.alike_trans ((Text.alike_comm ..).trans hkey) hm
    have hmem : m ∈ members.under name := by simp [hone]
    rw [hone, List.perm_singleton.mp hperm.symm, named?_singleton hm, named?_singleton hn]
    exact .inr ⟨m, (List.mem_filter.mp hmem).1, n.2, rfl, rfl, hvalue⟩

end Members

end Scim
