import Scim.Proofs.Validation.Retention
import Scim.Service

/-!
# What creation leaves of values that only the server sets

A resource that a client wants to have made must bring no value of a read-only attribute.  The
enforcement of mutability takes such a value away, but of the keys that are spelled like the
attribute in any case it takes only the one that the name stands for.  A resource with one spelling
has no value of the attribute afterwards.  In a resource with two, the second one takes the place
of the first (`validateCreate_readOnly`, `validateCreate_group_spellings`).
-/

namespace Scim

variable {members : Members} {name : String}

/-- Without the member that a name stands for, nothing is under the name if nothing else was. -/
theorem Members.remove_slot_eq_nil_iff (hordered : members.InOrder) :
    (members.under name).remove (members.slot name) = [] ↔ (members.under name).length ≤ 1 := by
  have hunder : (members.under name).InOrder := hordered.filter _
  rw [← Members.slot_under]
  rcases hsplit : members.under name with _ | ⟨m, _ | ⟨n, rest⟩⟩
  · exact ⟨fun _ => Nat.zero_le 1, fun _ => rfl⟩
  · have hm : m ∈ members.under name := by simp [hsplit]
    simp [Members.remove, Members.slot_singleton (Members.alike_of_mem_under hm)]
  · rw [hsplit] at hunder
    refine iff_of_false (fun hnil => ?_) (by simp)
    have hgone := List.filter_eq_nil_iff.mp hnil
    have hm : m.1 = Members.slot (m :: n :: rest) name := by simpa using hgone m (by simp)
    have hn : n.1 = Members.slot (m :: n :: rest) name := by simpa using hgone n (by simp)
    have hlt : m.1 < n.1 := (List.pairwise_cons.mp hunder).1 n (by simp)
    rw [hm, hn] at hlt
    exact absurd hlt (String.lt_irrefl _)

theorem Resource.members_remove (r : Resource) (name : String) :
    (r.remove name).members = r.members.remove (r.members.slot name) := by
  unfold Resource.remove
  cases hkey : r.members.key? name with
  | none => rw [Members.remove_slot_of_key? hkey]
  | some key => rw [Members.slot_of_key? hkey]

namespace Validation

variable {ancestors : List (Walk.Frame (Option Json))} {a : Attribute} {v : Json}

/-- The visit of a read-only attribute that has no stored value gives `null`. -/
theorem visitAttribute_readOnly_alone (h : a.mutability = .readOnly) :
    mutabilityEditor.visitAttribute ancestors none a v = ⟨.null, .ok ()⟩ := by
  rw [visitAttribute_readOnly h]
  cases v <;> rfl

end Validation

namespace Service

variable {schema : Schema} {stored : Option Resource} {r kept : Resource}

theorem of_andThen {edited : Walk.Edited Validation.Error Resource}
    {check : Resource → Except Validation.Error Unit} (h : andThen edited check = ⟨kept, .ok ()⟩) :
    edited = ⟨kept, .ok ()⟩ := by
  rcases edited with ⟨next, _ | _⟩
  · exact h
  · exact congrArg (Walk.Edited.mk · (.ok ())) (congrArg Walk.Edited.value h)

/-- What passes all checks passes the enforcement of mutability, and is not changed after it. -/
theorem enforceMutability_of_validate (h : validate schema stored r = ⟨kept, .ok ()⟩) :
    Validation.enforceMutability schema stored r = ⟨kept, .ok ()⟩ :=
  of_andThen (of_andThen h)

/-- After creation the members under the name of a read-only attribute are those that the client
has sent, without the one that the name stands for.  So the attribute is gone exactly if the client
has sent at most one spelling of it. -/
theorem validateCreate_readOnly {schema : Schema} (hschema : schema.Accepted) {r kept : Resource}
    (hordered : r.members.InOrder) (h : validateCreate schema r = ⟨kept, .ok ()⟩) :
    ∀ a ∈ schema.attributes, a.mutability = .readOnly →
      kept.members.under a.name = (r.remove a.name).members.under a.name ∧
      (kept.get? a.name = none ↔ (r.members.under a.name).length ≤ 1) ∧
      (Text.alike a.name "id" = true → (r.members.under a.name).length ≤ 1 → kept.id? = none) := by
  have hsound := hschema.sound
  have hwalk := Validation.walkAll_of_enforceMutability (enforceMutability_of_validate h)
  intro a ha hro
  obtain ⟨before, v, hbefore, hvisit, hkept⟩ :=
    Walk.Editor.walkAll_visits hwalk hsound.distinct ha
  have hnull : v = .null := by
    have hvalue := hvisit.symm.trans (Validation.visitAttribute_readOnly_alone hro)
    exact congrArg Walk.Edited.value hvalue
  have hunder : kept.members.under a.name =
      (r.members.under a.name).remove (r.members.slot a.name) := by
    rw [hkept, hnull, Walk.Editor.store_null, Members.under_remove, Members.slot_congr hbefore,
      hbefore]
  have hgone : kept.get? a.name = none ↔ (r.members.under a.name).length ≤ 1 := by
    rw [Resource.get?, Members.named?_eq_none_iff, hunder, Members.remove_slot_eq_nil_iff hordered]
  refine ⟨?_, hgone, fun hid hone => ?_⟩
  · rw [hunder, Resource.members_remove, Members.under_remove]
  · have hempty : kept.members.under "id" = [] := by
      rw [← Members.under_congr hid, ← Members.named?_eq_none_iff]
      exact hgone.mpr hone
    rw [Resource.id?, Resource.get?, Members.named?_eq_none_iff.mpr hempty]
    rfl

/-- A group is sent with one spelling of its identifier, and is made without. -/
theorem validateCreate_readOnly_group :
    let r : Resource := ⟨[("ID", .string "g1"), ("displayName", .string "Ops"),
      ("schemas", .array [.string Schema.groupId])]⟩
    let kept : Resource := ⟨[("displayName", .string "Ops"),
      ("schemas", .array [.string Schema.groupId])]⟩
    r.members.InOrder ∧ validateCreate Schema.group r = ⟨kept, .ok ()⟩ ∧ kept.id? = none := by
  intro r kept
  have hordered : r.members.InOrder := by
    refine .cons ?_ (List.pairwise_pair.mpr (by decide))
    intro m hm
    rcases List.mem_cons.mp hm with rfl | hm
    · decide
    · rw [List.mem_singleton.mp hm]
      decide
  have hcreate : validateCreate Schema.group r = ⟨kept, .ok ()⟩ := by
    dsimp only [r, kept]
    decide +kernel
  obtain ⟨a, ha, hro, hname⟩ : ∃ s, Schema.group.root.sub? "id" = some s ∧
      s.mutability = .readOnly ∧ s.name = "id" := ⟨_, rfl, rfl, rfl⟩
  obtain ⟨hmem, halike⟩ := Attribute.mem_of_sub? ha
  obtain ⟨_, _, hid⟩ :=
    validateCreate_readOnly (.built Schema.build_group) hordered hcreate a hmem hro
  exact ⟨hordered, hcreate, hid halike (by rw [hname]; decide)⟩

/-- A group that is sent with two spellings of its identifier is made with one that the client has
chosen. -/
theorem validateCreate_group_spellings :
    ∃ a ∈ Schema.group.attributes, a.name = "id" ∧ a.mutability = .readOnly ∧
      ∃ kept, validateCreate Schema.group ⟨[("ID", .string "chosen"),
          ("displayName", .string "Ops"), ("id", .string "g1"),
          ("schemas", .array [.string Schema.groupId])]⟩ = ⟨kept, .ok ()⟩ ∧
        kept.id? = some "chosen" := by
  obtain ⟨a, ha, hro, hname⟩ : ∃ s, Schema.group.root.sub? "id" = some s ∧
      s.mutability = .readOnly ∧ s.name = "id" := ⟨_, rfl, rfl, rfl⟩
  obtain ⟨hmem, _⟩ := Attribute.mem_of_sub? ha
  have hcreate : validateCreate Schema.group ⟨[("ID", .string "chosen"),
      ("displayName", .string "Ops"), ("id", .string "g1"),
      ("schemas", .array [.string Schema.groupId])]⟩ =
      ⟨⟨[("ID", .string "chosen"), ("displayName", .string "Ops"),
        ("schemas", .array [.string Schema.groupId])]⟩, .ok ()⟩ := by
    decide +kernel
  exact ⟨a, hmem, hname, hro, _, hcreate, rfl⟩

end Service

end Scim
