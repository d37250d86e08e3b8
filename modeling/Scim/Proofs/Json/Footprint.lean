import Mathlib.Data.List.Basic
import Mathlib.Data.List.Induction
import Scim.Proofs.Json.Ordered

/-!
# The members under a name

A name divides the members of an object in two: those *under* the name, whose keys are like it in
any case, and those *apart* from it.  What is read under a name is told by the members under it.
What is written into the slot of a name changes only these members.

Members in order are determined by what stands under their keys, so changes under different names
can be made in either order.
-/

namespace Scim.Members

/-- The members whose keys are like a name. -/
def under (members : Members) (name : String) : Members :=
  members.filter fun m => Text.alike m.1 name

/-- The members whose keys are not like a name. -/
def apart (members : Members) (name : String) : Members :=
  members.filter fun m => !Text.alike m.1 name

variable {members other : Members} {key key' name : String} {v : Json}

/-! ## Reading -/

theorem get?_filter {p : String → Bool} (h : p key = true) (members : Members) :
    get? (members.filter fun m => p m.1) key = members.get? key := by
  induction members with
  | nil => rfl
  | cons m rest ih =>
      obtain ⟨k, w⟩ := m
      by_cases hp : p k = true
      · rw [List.filter_cons_of_pos (by simpa using hp), get?_cons, get?_cons, ih]
      · have hne : key ≠ k := by
          rintro rfl
          exact hp h
        rw [List.filter_cons_of_neg (by simpa using hp), get?_cons, if_neg hne, ih]

theorem get?_under (h : Text.alike key name = true) (members : Members) :
    (members.under name).get? key = members.get? key :=
  get?_filter (p := fun k => Text.alike k name) h members

theorem key?_under (members : Members) (name : String) :
    (members.under name).key? name = members.key? name := by
  have hfind : (members.under name).find? (fun m => Text.alike m.1 name) =
      members.find? fun m => Text.alike m.1 name := by
    simp [under, List.find?_filter]
  rw [key?, key?, hasKey_iff_get?, hasKey_iff_get?, get?_under (Text.alike_refl name), hfind]

theorem slot_under (members : Members) (name : String) :
    (members.under name).slot name = members.slot name := by
  rw [slot, slot, key?_under]

theorem named?_under (members : Members) (name : String) :
    (members.under name).named? name = members.named? name := by
  rw [← get?_slot, ← get?_slot, slot_under, get?_under (alike_slot members name)]

theorem named?_eq_none_iff : members.named? name = none ↔ members.under name = [] := by
  constructor
  · intro h
    refine List.filter_eq_nil_iff.mpr fun m hm => ?_
    cases hkey : members.key? name with
    | none => simp [not_alike_of_key? hkey hm]
    | some key =>
        obtain ⟨v, hv⟩ := exists_of_key? hkey
        rw [named?_of_key? hkey, hv] at h
        cases h
  · intro h
    rw [← named?_under, h]
    rfl

/-- What is read under a name is told by the members under it. -/
theorem named?_congr (h : other.under name = members.under name) :
    other.named? name = members.named? name := by
  rw [← named?_under other, h, named?_under]

theorem valueOf_congr (h : other.under name = members.under name) :
    other.valueOf name = members.valueOf name := by
  rw [valueOf, named?_congr h, ← valueOf]

theorem slot_congr (h : other.under name = members.under name) :
    other.slot name = members.slot name := by
  rw [← slot_under other, h, slot_under]

/-- Names that are alike divide the members in the same way. -/
theorem under_congr {name' : String} (h : Text.alike name name' = true) (members : Members) :
    members.under name = members.under name' := by
  have hsame : Text.folded name = Text.folded name' := Text.alike_iff.mp h
  simp only [under, Text.alike, hsame]

/-! ## Distinct keys -/

theorem alike_of_mem_under {m : String × Json} (h : m ∈ members.under name) :
    Text.alike m.1 name = true := by
  simpa using (List.mem_filter.mp h).2

theorem key?_singleton {m : String × Json} (h : Text.alike m.1 name = true) :
    key? [m] name = some m.1 := by
  by_cases hname : m.1 = name <;> simp [key?, hasKey, hname, h]

theorem slot_singleton {m : String × Json} (h : Text.alike m.1 name = true) :
    slot [m] name = m.1 := slot_of_key? (key?_singleton h)

theorem named?_singleton {m : String × Json} (h : Text.alike m.1 name = true) :
    named? [m] name = some m.2 := by
  rw [named?_of_key? (key?_singleton h), get?_cons, if_pos rfl]

/-- Members of which no two have keys that are alike. -/
def DistinctKeys (members : Members) : Prop :=
  members.Pairwise fun m n => Text.alike m.1 n.1 = false

instance (members : Members) : Decidable members.DistinctKeys :=
  inferInstanceAs (Decidable (members.Pairwise _))

/-- If keys are distinct then at most one member is under a name. -/
theorem DistinctKeys.under_cases (h : members.DistinctKeys) (name : String) :
    members.under name = [] ∨ ∃ m, members.under name = [m] ∧ Text.alike m.1 name = true := by
  have hdistinct : (members.under name).DistinctKeys := h.filter _
  rcases hunder : members.under name with _ | ⟨m, _ | ⟨n, rest⟩⟩
  · exact .inl rfl
  · have hm : m ∈ members.under name := by simp [hunder]
    exact .inr ⟨m, rfl, alike_of_mem_under hm⟩
  · rw [hunder] at hdistinct
    have hm : m ∈ members.under name := by simp [hunder]
    have hn : n ∈ members.under name := by simp [hunder]
    have halike : Text.alike m.1 n.1 = true := Text.alike_trans (alike_of_mem_under hm)
      ((Text.alike_comm ..).trans (alike_of_mem_under hn))
    rw [(List.pairwise_cons.mp hdistinct).1 n (by simp)] at halike
    cases halike

/-- If keys are distinct then names that are alike stand for the same. -/
theorem DistinctKeys.named?_congr {name' : String} (h : members.DistinctKeys)
    (halike : Text.alike name name' = true) : members.named? name = members.named? name' := by
  rw [← named?_under members name, ← named?_under members name', ← under_congr halike]
  rcases h.under_cases name with hunder | ⟨m, hunder, hm⟩
  · rw [hunder]
    rfl
  · have hm' : Text.alike m.1 name' = true := Text.alike_trans hm halike
    rw [hunder, named?_singleton hm, named?_singleton hm']

/-! ## Writing -/

/-- A filter that drops a key does not notice what is put there. -/
theorem filter_put {p : String → Bool} (h : p key = false) (v : Json) (members : Members) :
    (put key v members).filter (fun m => p m.1) = members.filter fun m => p m.1 := by
  fun_induction put key v members with
  | case1 => simp [h]
  | case2 w rest => simp [h]
  | case3 k w rest => simp [h]
  | case4 k w rest _ _ ih => simp only [List.filter_cons, ih]

theorem apart_put (h : Text.alike key name = true) (v : Json) (members : Members) :
    (put key v members).apart name = members.apart name :=
  filter_put (p := fun k => !Text.alike k name) (by simp [h]) v members

theorem under_put_of_not_alike (h : Text.alike key name = false) (v : Json) (members : Members) :
    (put key v members).under name = members.under name :=
  filter_put (p := fun k => Text.alike k name) h v members

theorem filter_remove (p : String → Bool) (key : String) (members : Members) :
    (remove key members).filter (fun m => p m.1) =
      remove key (members.filter fun m => p m.1) := by
  simp only [remove, List.filter_filter, Bool.and_comm]

theorem under_remove (key name : String) (members : Members) :
    (remove key members).under name = remove key (members.under name) :=
  filter_remove (fun k => Text.alike k name) key members

/-- Removing a key that none of the members has changes nothing. -/
theorem remove_eq_self (h : ∀ m ∈ members, m.1 ≠ key) : remove key members = members := by
  refine List.filter_eq_self.mpr fun m hm => ?_
  simpa using h m hm

theorem remove_slot_of_key? (h : members.key? name = none) :
    members.remove (members.slot name) = members := by
  refine remove_eq_self fun m hm hkey => ?_
  have hne := not_alike_of_key? h hm
  rw [hkey, alike_slot] at hne
  cases hne

theorem apart_remove (h : Text.alike key name = true) (members : Members) :
    (remove key members).apart name = members.apart name := by
  have hne : ∀ m ∈ members.apart name, m.1 ≠ key := by
    intro m hm hkey
    simp [apart, hkey, h] at hm
  rw [apart, filter_remove (fun k => !Text.alike k name)]
  exact remove_eq_self hne

theorem under_remove_of_not_alike (h : Text.alike key name = false) (members : Members) :
    (remove key members).under name = members.under name := by
  have hne : ∀ m ∈ members.under name, m.1 ≠ key := by
    intro m hm hkey
    simp [under, hkey, h] at hm
  rw [under_remove, remove_eq_self hne]

/-- If keys are distinct then nothing is under a name after its member has been removed. -/
theorem DistinctKeys.under_remove_slot (h : members.DistinctKeys) (name : String) :
    (members.remove (members.slot name)).under name = [] := by
  rw [under_remove, ← slot_under]
  rcases h.under_cases name with hunder | ⟨m, hunder, hm⟩
  · rw [hunder]
    rfl
  · rw [hunder, slot_singleton hm]
    simp [remove]

/-- What is written into the slot of a name is read under the name. -/
theorem key?_put_slot (members : Members) (name : String) (v : Json) :
    (put (members.slot name) v members).key? name = some (members.slot name) := by
  by_cases hkey : members.hasKey name = true
  · have hslot : members.slot name = name := slot_of_key? (by rw [key?, if_pos hkey])
    rw [hslot, key?, hasKey_iff_get?, get?_put_self]
    rfl
  · cases hfind : members.find? fun m => Text.alike m.1 name with
    | none =>
        have hslot : members.slot name = name := by
          rw [slot, key?, if_neg hkey, hfind]
          rfl
        rw [hslot, key?, hasKey_iff_get?, get?_put_self]
        rfl
    | some m =>
        have hslot : members.slot name = m.1 := slot_of_key? (by rw [key?, if_neg hkey, hfind]; rfl)
        have halike : Text.alike m.1 name = true := by simpa using List.find?_some hfind
        rw [hslot]
        -- The slot is the first key that is alike, and it is still the first one afterwards.
        have hfirst : (put m.1 v members).find? (fun m => Text.alike m.1 name) = some (m.1, v) := by
          clear hkey hslot
          generalize hk : m.1 = key at halike ⊢
          fun_induction put key v members with
          | case1 => cases hfind
          | case2 w rest => exact List.find?_cons_of_pos (by simpa using halike)
          | case3 k w rest => exact List.find?_cons_of_pos (by simpa using halike)
          | case4 k w rest hne _ ih =>
              by_cases hk' : Text.alike k name = true
              · rw [List.find?_cons_of_pos (by simpa using hk')] at hfind
                cases hfind
                exact absurd hk hne
              · rw [List.find?_cons_of_neg (by simpa using hk')] at hfind ⊢
                exact ih hfind
        by_cases hname : m.1 = name
        · rw [hname, key?, hasKey_iff_get?, get?_put_self]
          rfl
        · rw [key?, hasKey_iff_get?, get?_put_of_ne (Ne.symm hname), ← hasKey_iff_get?,
            if_neg hkey, hfirst]
          rfl

theorem named?_put_slot (members : Members) (name : String) (v : Json) :
    (put (members.slot name) v members).named? name = some v := by
  rw [named?_of_key? (key?_put_slot members name v), get?_put_self]

theorem valueOf_put_slot (members : Members) (name : String) (v : Json) :
    (put (members.slot name) v members).valueOf name = v :=
  valueOf_of_named? (named?_put_slot members name v)

/-- What is put into the slot of a name does not move the slot. -/
theorem slot_put_slot (members : Members) (name : String) (v : Json) :
    (put (members.slot name) v members).slot name = members.slot name :=
  slot_of_key? (key?_put_slot members name v)

theorem slot_put_of_not_alike (h : Text.alike key name = false) (v : Json) (members : Members) :
    (put key v members).slot name = members.slot name := by
  rw [slot, key?_put h, slot]

/-- The later of two values at one key counts. -/
@[simp] theorem put_put_self (key : String) (v w : Json) (members : Members) :
    put key w (put key v members) = put key w members := by
  fun_induction put key v members with
  | case1 => simp [put]
  | case2 => simp [put]
  | case3 k u rest hne hlt => simp [put, hne, hlt]
  | case4 k u rest hne hlt ih => rw [put, if_neg hne, if_neg hlt, ih, put, if_neg hne, if_neg hlt]

/-! ## Order -/

/-- A member that belongs in front of the others is put there. -/
theorem put_of_lt (h : ∀ m ∈ members, key < m.1) (v : Json) :
    put key v members = (key, v) :: members := by
  cases members with
  | nil => rfl
  | cons m rest =>
      obtain ⟨k, w⟩ := m
      have hlt : key < k := h (k, w) List.mem_cons_self
      rw [put, if_neg (String.ne_of_lt hlt).symm, if_pos hlt]

/-- In order, a filter that keeps a key keeps what is put there. -/
theorem filter_put_of_pos {p : String → Bool} (h : p key = true)
    (hordered : members.InOrder) (v : Json) :
    (put key v members).filter (fun m => p m.1) = put key v (members.filter fun m => p m.1) := by
  fun_induction put key v members with
  | case1 => simp [h, put]
  | case2 w rest =>
      simp only [List.filter_cons, h, if_true]
      rw [put, if_pos rfl]
  | case3 k w rest hne hlt =>
      have hfront : ∀ m ∈ ((k, w) :: rest).filter fun m => p m.1, key < m.1 := by
        intro m hm
        rcases List.mem_cons.mp (List.mem_filter.mp hm).1 with rfl | hm
        · exact hlt
        · exact String.lt_trans hlt ((List.pairwise_cons.mp hordered).1 m hm)
      rw [put_of_lt hfront, List.filter_cons_of_pos (by simpa using h)]
  | case4 k w rest hne hlt ih =>
      have ih := ih (List.pairwise_cons.mp hordered).2
      by_cases hp : p k = true
      · rw [List.filter_cons_of_pos (by simpa using hp), ih,
          List.filter_cons_of_pos (by simpa using hp), put, if_neg hne, if_neg hlt]
      · rw [List.filter_cons_of_neg (by simpa using hp), ih,
          List.filter_cons_of_neg (by simpa using hp)]

theorem under_put (h : Text.alike key name = true)
    (hordered : members.InOrder) (v : Json) :
    (put key v members).under name = put key v (members.under name) :=
  filter_put_of_pos (p := fun k => Text.alike k name) h hordered v

theorem InOrder.put (hordered : members.InOrder) (key : String) (v : Json) :
    (members.put key v).InOrder := by
  fun_induction Members.put key v members with
  | case1 => exact List.pairwise_singleton _ _
  | case2 w rest => exact List.pairwise_cons.mpr (List.pairwise_cons.mp hordered)
  | case3 k w rest hne hlt =>
      refine List.pairwise_cons.mpr ⟨fun m hm => ?_, hordered⟩
      rcases List.mem_cons.mp hm with rfl | hm
      · exact hlt
      · exact String.lt_trans hlt ((List.pairwise_cons.mp hordered).1 m hm)
  | case4 k w rest hne hlt ih =>
      obtain ⟨hfront, hrest⟩ := List.pairwise_cons.mp hordered
      refine List.pairwise_cons.mpr ⟨fun m hm => ?_, ih hrest⟩
      rcases mem_put hm with rfl | hm
      · exact (Std.lt_trichotomy k key).resolve_right fun h => h.elim hne hlt
      · exact hfront m hm

/-- A key that is alike to no other one keeps keys distinct. -/
theorem DistinctKeys.put (h : members.DistinctKeys) (hordered : members.InOrder)
    (hkey : ∀ m ∈ members, m.1 ≠ key → Text.alike m.1 key = false) (v : Json) :
    (members.put key v).DistinctKeys := by
  fun_induction Members.put key v members with
  | case1 => exact List.pairwise_singleton _ _
  | case2 w rest => exact List.pairwise_cons.mpr (List.pairwise_cons.mp h)
  | case3 k w rest hne hlt =>
      refine List.pairwise_cons.mpr ⟨fun m hm => ?_, h⟩
      have hlater : key < m.1 := by
        rcases List.mem_cons.mp hm with rfl | hm
        · exact hlt
        · exact String.lt_trans hlt ((List.pairwise_cons.mp hordered).1 m hm)
      rw [Text.alike_comm]
      exact hkey m hm (String.ne_of_lt hlater).symm
  | case4 k w rest hne _ ih =>
      obtain ⟨hk, hrest⟩ := List.pairwise_cons.mp h
      refine List.pairwise_cons.mpr ⟨fun m hm => ?_, ih hrest (List.pairwise_cons.mp hordered).2
        fun m hm => hkey m (List.mem_cons_of_mem _ hm)⟩
      rcases mem_put hm with rfl | hm
      · exact hkey (k, w) List.mem_cons_self hne
      · exact hk m hm

/-- Putting a value under a name keeps keys distinct. -/
theorem DistinctKeys.put_slot (h : members.DistinctKeys) (hordered : members.InOrder)
    (name : String) (v : Json) : (members.put (members.slot name) v).DistinctKeys := by
  refine h.put hordered (fun m hm hne => ?_) v
  cases hkey : members.key? name with
  | none =>
      rw [slot, hkey]
      exact not_alike_of_key? hkey hm
  | some key =>
      rw [slot_of_key? hkey] at hne ⊢
      obtain ⟨w, hw⟩ := exists_of_key? hkey
      refine Bool.eq_false_iff.mpr fun halike => hne ?_
      have hm : m ∈ members.under key := List.mem_filter.mpr ⟨hm, halike⟩
      have hw : (key, w) ∈ members.under key :=
        List.mem_filter.mpr ⟨mem_of_get? hw, Text.alike_refl key⟩
      rcases h.under_cases key with hunder | ⟨n, hunder, _⟩
      · rw [hunder] at hm
        cases hm
      · rw [hunder, List.mem_singleton] at hm hw
        rw [hm, ← hw]

theorem InOrder.remove (hordered : members.InOrder) (key : String) :
    (members.remove key).InOrder :=
  hordered.sublist List.filter_sublist

/-- A value in order that is put into an object keeps it in order. -/
theorem ordered_put (h : (Json.object members).Ordered) (key : String) (hv : v.Ordered) :
    (Json.object (members.put key v)).Ordered := by
  cases h with
  | object keys values =>
      refine .object (keys.put key v) fun m hm => ?_
      rcases mem_put hm with rfl | hm
      · exact hv
      · exact values m hm

theorem ordered_remove (h : (Json.object members).Ordered) (key : String) :
    (Json.object (members.remove key)).Ordered := by
  cases h with
  | object keys values =>
      exact .object (keys.remove key) fun m hm => values m (mem_of_mem_remove hm)

/-- In order, no member behind the first one has its key. -/
theorem InOrder.ne_head {m n : String × Json} {rest : Members}
    (hordered : InOrder (m :: rest)) (hn : n ∈ rest) : n.1 ≠ m.1 :=
  (String.ne_of_lt ((List.pairwise_cons.mp hordered).1 n hn)).symm

/-! ## Changing every member -/

section

variable {f g : String × Json → Option (String × Json)} {w : Json}

/-- A change of every member does not notice what is put at a key if it was to make the same of
the member there. -/
theorem filterMap_put_of_get? (hordered : members.InOrder) (hget : members.get? key = some v)
    (hself : g (key, w) = f (key, v)) (hother : ∀ m ∈ members, m.1 ≠ key → g m = f m) :
    (members.put key w).filterMap g = members.filterMap f := by
  fun_induction Members.put key w members with
  | case1 => cases hget
  | case2 u rest =>
      rw [get?_cons, if_pos rfl] at hget
      cases hget
      have hrest : rest.filterMap g = rest.filterMap f :=
        List.filterMap_congr fun m hm =>
          hother m (List.mem_cons_of_mem _ hm) (hordered.ne_head hm)
      rw [List.filterMap_cons, List.filterMap_cons, hself, hrest]
  | case3 k u rest hne hlt =>
      rw [get?_cons, if_neg (Ne.symm hne)] at hget
      have hafter : k < key := (List.pairwise_cons.mp hordered).1 _ (mem_of_get? hget)
      exact absurd hlt (String.lt_asymm hafter)
  | case4 k u rest hne _ ih =>
      rw [get?_cons, if_neg (Ne.symm hne)] at hget
      rw [List.filterMap_cons, List.filterMap_cons, hother (k, u) List.mem_cons_self hne,
        ih (List.pairwise_cons.mp hordered).2 hget
          fun m hm => hother m (List.mem_cons_of_mem _ hm)]

/-- A change of every member does not notice that a member is removed that it was to drop. -/
theorem filterMap_remove_of_get? (hordered : members.InOrder) (hget : members.get? key = some v)
    (hself : f (key, v) = none) (hother : ∀ m ∈ members, m.1 ≠ key → g m = f m) :
    (members.remove key).filterMap g = members.filterMap f := by
  induction members with
  | nil => cases hget
  | cons m rest ih =>
      obtain ⟨k, u⟩ := m
      rw [get?_cons] at hget
      by_cases hkey : key = k
      · subst hkey
        rw [if_pos rfl] at hget
        cases hget
        rw [Members.remove, List.filter_cons_of_neg (by simp), ← Members.remove,
          remove_eq_self fun m hm => hordered.ne_head hm, List.filterMap_cons, hself]
        exact List.filterMap_congr fun m hm =>
          hother m (List.mem_cons_of_mem _ hm) (hordered.ne_head hm)
      · rw [if_neg hkey] at hget
        rw [Members.remove, List.filter_cons_of_pos (by simpa using Ne.symm hkey),
          ← Members.remove, List.filterMap_cons, List.filterMap_cons,
          hother (k, u) List.mem_cons_self (Ne.symm hkey),
          ih (List.pairwise_cons.mp hordered).2 hget
            fun m hm => hother m (List.mem_cons_of_mem _ hm)]

/-- A change of every member does not notice what is put at a new key if it drops it. -/
theorem filterMap_put_of_new (hget : members.get? key = none) (h : f (key, v) = none) :
    (members.put key v).filterMap f = members.filterMap f := by
  fun_induction Members.put key v members with
  | case1 => simp [h]
  | case2 u rest =>
      rw [get?_cons, if_pos rfl] at hget
      cases hget
  | case3 k u rest => rw [List.filterMap_cons, h]
  | case4 k u rest hne _ ih =>
      rw [get?_cons, if_neg (Ne.symm hne)] at hget
      rw [List.filterMap_cons, List.filterMap_cons, ih hget]

/-- In order, what a change that keeps keys makes of a member stands at its key. -/
theorem get?_filterMap (hordered : members.InOrder) (hkeys : ∀ m n, f m = some n → n.1 = m.1) :
    Members.get? (members.filterMap f) key =
      (members.get? key).bind fun u => (f (key, u)).map (·.2) := by
  induction members with
  | nil => rfl
  | cons m rest ih =>
      obtain ⟨k, u⟩ := m
      have ih := ih (List.pairwise_cons.mp hordered).2
      rw [get?_cons]
      by_cases hkey : key = k
      · subst hkey
        rw [if_pos rfl, Option.bind_some, List.filterMap_cons]
        cases hf : f (key, u) with
        | none =>
            have hgone : Members.get? rest key = none := by
              cases hget : Members.get? rest key with
              | none => rfl
              | some w => exact absurd rfl (hordered.ne_head (n := (key, w)) (mem_of_get? hget))
            rw [ih, hgone]
            rfl
        | some n =>
            obtain ⟨l, w⟩ := n
            obtain rfl : l = key := hkeys _ _ hf
            rw [get?_cons, if_pos rfl]
            rfl
      · rw [if_neg hkey, List.filterMap_cons]
        cases hf : f (k, u) with
        | none => exact ih
        | some n =>
            obtain ⟨l, w⟩ := n
            obtain rfl : l = k := hkeys _ _ hf
            rw [get?_cons, if_neg hkey, ih]

end

/-! ## Changes at different keys -/

theorem put_put_of_lt (h : key < key') (v w : Json) (members : Members) :
    put key v (put key' w members) = put key' w (put key v members) := by
  have hne : key ≠ key' := String.ne_of_lt h
  have hnlt : ¬ key' < key := String.lt_asymm h
  induction members with
  | nil => simp [put, hne, hne.symm, h, hnlt]
  | cons m rest ih =>
      obtain ⟨k, u⟩ := m
      by_cases hk : k = key
      · subst hk
        simp [put, hne, hnlt]
      by_cases hlt : key < k
      · have hfront : put key v ((k, u) :: rest) = (key, v) :: (k, u) :: rest := by
          rw [put, if_neg hk, if_pos hlt]
        rw [hfront]
        by_cases hk' : k = key'
        · simp [put, hk', hne, hne.symm, h, hnlt]
        by_cases hlt' : key' < k
        · simp [put, hk', hlt', hne, hne.symm, h, hnlt]
        · simp [put, hk, hk', hlt, hlt', hne, hnlt]
      · -- The head stays in front of both keys.
        have hkey' : k ≠ key' := by
          rintro rfl
          exact hlt h
        have hnlt' : ¬ key' < k := fun hlt' => hlt (String.lt_trans h hlt')
        simp [put, hk, hlt, hkey', hnlt', ih]

/-- Different keys can be put in either order. -/
theorem put_put_comm (h : key ≠ key') (v w : Json) (members : Members) :
    put key v (put key' w members) = put key' w (put key v members) := by
  rcases Std.lt_trichotomy key key' with hlt | heq | hlt
  · exact put_put_of_lt hlt v w members
  · exact absurd heq h
  · exact (put_put_of_lt hlt w v members).symm

/-- In order, a key that is removed does not matter for where another one is put. -/
theorem remove_put_comm (h : key ≠ key') (hordered : members.InOrder)
    (v : Json) : remove key' (put key v members) = put key v (remove key' members) :=
  filter_put_of_pos (p := fun k => k != key') (by simpa using h) hordered v

theorem remove_remove_comm (key key' : String) (members : Members) :
    remove key (remove key' members) = remove key' (remove key members) :=
  filter_remove (fun k => k != key) key' members

/-! ## Members of pairs -/

theorem ofPairs_append_singleton (pairs : List (String × Json)) (p : String × Json) :
    ofPairs (pairs ++ [p]) = put p.1 p.2 (ofPairs pairs) := List.foldl_concat ..

theorem inOrder_ofPairs (pairs : List (String × Json)) : (ofPairs pairs).InOrder := by
  induction pairs using List.reverseRecOn with
  | nil => exact .nil
  | append_singleton pairs p ih =>
      rw [ofPairs_append_singleton]
      exact ih.put p.1 p.2

theorem mem_ofPairs {pairs : List (String × Json)} {m : String × Json} (h : m ∈ ofPairs pairs) :
    m ∈ pairs := by
  induction pairs using List.reverseRecOn with
  | nil => cases h
  | append_singleton pairs p ih =>
      rw [ofPairs_append_singleton] at h
      rcases mem_put h with rfl | h
      · exact List.mem_append_right _ List.mem_cons_self
      · exact List.mem_append_left _ (ih h)

theorem ordered_ofPairs {pairs : List (String × Json)} (h : ∀ p ∈ pairs, p.2.Ordered) :
    (Json.object (ofPairs pairs)).Ordered :=
  .object (inOrder_ofPairs pairs) fun m hm => h m (mem_ofPairs hm)

/-- Of two pairs with one key the later one counts. -/
theorem get?_ofPairs (pairs : List (String × Json)) (key : String) :
    (ofPairs pairs).get? key = get? pairs.reverse key := by
  induction pairs using List.reverseRecOn with
  | nil => rfl
  | append_singleton pairs p ih =>
      rw [ofPairs_append_singleton, List.reverse_append, List.reverse_singleton,
        List.singleton_append, get?_cons]
      by_cases hkey : key = p.1
      · rw [hkey, if_pos rfl, get?_put_self]
      · rw [if_neg hkey, get?_put_of_ne hkey, ih]

end Scim.Members
