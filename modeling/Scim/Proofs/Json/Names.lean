import Scim.Json.Members

/-!
# Members by name

Which members there are after a member has been put into its place or removed, and which key a
name stands for.  A name stands for a key that is like it in any case, so what is read or written
under a name belongs to every attribute of that name.
-/

namespace Scim.Members

variable {members : Members} {key name : String} {v : Json} {m : String × Json}

theorem mem_of_get? (h : members.get? key = some v) : (key, v) ∈ members := by
  induction members with
  | nil => cases h
  | cons m rest ih =>
      obtain ⟨k, w⟩ := m
      rw [get?_cons] at h
      split at h
      case isTrue hk =>
          cases h
          subst hk
          exact List.mem_cons_self ..
      case isFalse => exact List.mem_cons_of_mem _ (ih h)

/-- What is in an object after a member has been put into its place. -/
theorem mem_put (h : m ∈ put key v members) : m = (key, v) ∨ m ∈ members := by
  fun_induction put key v members with
  | case1 => exact Or.inl (List.mem_singleton.mp h)
  | case2 w rest =>
      rcases List.mem_cons.mp h with h | h
      · exact Or.inl h
      · exact Or.inr (List.mem_cons_of_mem _ h)
  | case3 k w rest _ _ =>
      rcases List.mem_cons.mp h with h | h
      · exact Or.inl h
      · exact Or.inr h
  | case4 k w rest _ _ ih =>
      rcases List.mem_cons.mp h with h | h
      · exact Or.inr (h ▸ List.mem_cons_self ..)
      · rcases ih h with h | h
        · exact Or.inl h
        · exact Or.inr (List.mem_cons_of_mem _ h)

theorem mem_of_mem_remove (h : m ∈ remove key members) : m ∈ members :=
  (List.mem_filter.mp h).1

theorem hasKey_iff_get? : members.hasKey key = (members.get? key).isSome := by
  induction members with
  | nil => rfl
  | cons m rest ih =>
      obtain ⟨k, w⟩ := m
      rw [get?_cons]
      by_cases h : key = k
      · simp [hasKey, h]
      · have hne : (k == key) = false := by simpa using Ne.symm h
        rw [if_neg h, ← ih]
        simp [hasKey, hne]

/-! ## The key of a name -/

/-- A name stands for a key that is like it. -/
theorem alike_of_key? (h : members.key? name = some key) : Text.alike key name = true := by
  unfold key? at h
  split at h
  · cases h
    exact Text.alike_refl _
  · obtain ⟨m, hm, rfl⟩ := Option.map_eq_some_iff.mp h
    simpa using List.find?_some hm

/-- The key that a name stands for has a value. -/
theorem exists_of_key? (h : members.key? name = some key) :
    ∃ v, members.get? key = some v := by
  rw [← Option.isSome_iff_exists, ← hasKey_iff_get?]
  unfold key? at h
  split at h
  case isTrue hkey =>
      cases h
      exact hkey
  case isFalse =>
      obtain ⟨m, hm, rfl⟩ := Option.map_eq_some_iff.mp h
      exact List.any_eq_true.mpr ⟨m, List.mem_of_find?_eq_some hm, by simp⟩

/-- If a name stands for no key then no key is like it. -/
theorem not_alike_of_key? (h : members.key? name = none) (hm : m ∈ members) :
    Text.alike m.1 name = false := by
  unfold key? at h
  split at h
  · cases h
  · have hnone := List.find?_eq_none.mp (Option.map_eq_none_iff.mp h) m hm
    simpa using hnone

theorem alike_slot (members : Members) (name : String) :
    Text.alike (members.slot name) name = true := by
  unfold slot
  cases h : members.key? name with
  | none => exact Text.alike_refl _
  | some key => exact alike_of_key? h

theorem slot_of_key? (h : members.key? name = some key) : members.slot name = key := by
  rw [slot, h]
  rfl

/-- What is read under a name is the value of a member whose key is like the name. -/
theorem mem_of_named? (h : members.named? name = some v) :
    ∃ key, Text.alike key name = true ∧ (key, v) ∈ members := by
  unfold named? at h
  cases hkey : members.key? name with
  | none =>
      rw [hkey] at h
      cases h
  | some key =>
      rw [hkey] at h
      exact ⟨key, alike_of_key? hkey, mem_of_get? h⟩

theorem named?_of_key? (h : members.key? name = some key) :
    members.named? name = members.get? key := by
  rw [named?, h]
  rfl

theorem named?_eq_none (h : members.key? name = none) : members.named? name = none := by
  rw [named?, h]
  rfl

theorem valueOf_of_key? (h : members.key? name = some key) (hget : members.get? key = some v) :
    members.valueOf name = v := by
  rw [valueOf, named?_of_key? h, hget]
  rfl

theorem valueOf_eq_null (h : members.key? name = none) : members.valueOf name = .null := by
  rw [valueOf, named?_eq_none h]
  rfl

theorem valueOf_of_named? (h : members.named? name = some v) : members.valueOf name = v := by
  rw [valueOf, h]
  rfl

/-- What is written under a name is written where it is read. -/
theorem get?_slot (members : Members) (name : String) :
    members.get? (members.slot name) = members.named? name := by
  cases h : members.key? name with
  | some key => rw [slot_of_key? h, named?_of_key? h]
  | none =>
      have hslot : members.slot name = name := by rw [slot, h]; rfl
      rw [named?_eq_none h, hslot]
      cases hget : members.get? name with
      | none => rfl
      | some v =>
          have halike := not_alike_of_key? h (mem_of_get? hget)
          rw [Text.alike_refl] at halike
          cases halike

/-! ## Other names -/

theorem ne_of_not_alike (h : Text.alike key name = false) : name ≠ key := by
  rintro rfl
  rw [Text.alike_refl] at h
  cases h

/-- A key that is not like a name does not matter for it when it is put. -/
theorem key?_put (h : Text.alike key name = false) (v : Json) (members : Members) :
    (put key v members).key? name = members.key? name := by
  have hfind : (put key v members).find? (fun m => Text.alike m.1 name) =
      members.find? fun m => Text.alike m.1 name := by
    fun_induction put key v members with
    | case1 => rw [List.find?_cons_of_neg (by simp [h])]
    | case2 w rest =>
        rw [List.find?_cons_of_neg (by simp [h]), List.find?_cons_of_neg (by simp [h])]
    | case3 => rw [List.find?_cons_of_neg (by simp [h])]
    | case4 k w rest _ _ ih => rw [List.find?_cons, List.find?_cons, ih]
  rw [key?, key?, hasKey_iff_get?, hasKey_iff_get?, get?_put_of_ne (ne_of_not_alike h), hfind]

/-- A key that is not like a name does not matter for it when it is removed. -/
theorem key?_remove (h : Text.alike key name = false) (members : Members) :
    (remove key members).key? name = members.key? name := by
  have hfind : (remove key members).find? (fun m => Text.alike m.1 name) =
      members.find? fun m => Text.alike m.1 name := by
    rw [remove, List.find?_filter]
    refine congrArg (members.find? ·) (funext fun m => ?_)
    by_cases hkey : m.1 = key
    · simp [hkey, h]
    · simp [hkey]
  rw [key?, key?, hasKey_iff_get?, hasKey_iff_get?, get?_remove_of_ne (ne_of_not_alike h), hfind]

theorem named?_put (h : Text.alike key name = false) (v : Json) (members : Members) :
    (put key v members).named? name = members.named? name := by
  cases hkey : members.key? name with
  | none => rw [named?_eq_none hkey, named?_eq_none (by rw [key?_put h, hkey])]
  | some k =>
      have hne : k ≠ key := by
        rintro rfl
        rw [alike_of_key? hkey] at h
        cases h
      rw [named?_of_key? hkey, named?_of_key? (by rw [key?_put h, hkey]), get?_put_of_ne hne]

theorem named?_remove (h : Text.alike key name = false) (members : Members) :
    (remove key members).named? name = members.named? name := by
  cases hkey : members.key? name with
  | none => rw [named?_eq_none hkey, named?_eq_none (by rw [key?_remove h, hkey])]
  | some k =>
      have hne : k ≠ key := by
        rintro rfl
        rw [alike_of_key? hkey] at h
        cases h
      rw [named?_of_key? hkey, named?_of_key? (by rw [key?_remove h, hkey]),
        get?_remove_of_ne hne]

end Scim.Members
