import Scim.Proofs.Json.Names

/-!
# Values in order

Every value equals itself, and the functions of `Scim.Json.Members` keep the members of an object
in strictly increasing order of their keys.  `Json.Ordered` says that a value is in order at every
depth.  In order, putting a member where it stands already changes nothing.
-/

namespace Scim

/-- Members in strictly increasing order of their keys. -/
abbrev Members.InOrder (members : Members) : Prop := members.Pairwise fun m n => m.1 < n.1

namespace Json

/-! ## Equality -/

theorem Number.same_refl (n : Number) : n.same n = true := by
  cases n with
  | integer i => exact beq_self_eq_true i
  | float x =>
      show ((x.isZero && x.isZero) || x == x) = true
      rw [beq_self_eq_true, Bool.or_true]

mutual

/-- Every value equals itself. -/
theorem same_refl : ∀ v : Json, same v v = true
  | .null => rfl
  | .bool b => by rw [same, beq_self_eq_true]
  | .number n => by rw [same, Number.same_refl]
  | .string s => by rw [same, beq_self_eq_true]
  | .array items => by rw [same, sameItems_refl items]
  | .object members => by rw [same, sameMembers_refl members]
termination_by structural v => v

theorem sameItems_refl : ∀ items : List Json, sameItems items items = true
  | [] => rfl
  | v :: rest => by rw [sameItems, same_refl v, sameItems_refl rest]; rfl
termination_by structural items => items

theorem sameMembers_refl : ∀ members : List (String × Json), sameMembers members members = true
  | [] => rfl
  | (k, v) :: rest => by
      rw [sameMembers, same_refl v, sameMembers_refl rest, beq_self_eq_true]
      rfl
termination_by structural members => members

end

theorem beq_refl (v : Json) : (v == v) = true := same_refl v

/-! ## Order -/

/-- A value whose objects have their keys in strictly increasing order, at every depth. -/
inductive Ordered : Json → Prop where
  | null : Ordered .null
  | bool (b : Bool) : Ordered (.bool b)
  | number (n : Number) : Ordered (.number n)
  | string (s : String) : Ordered (.string s)
  | array {items : List Json} (values : ∀ v ∈ items, Ordered v) : Ordered (.array items)
  | object {members : Members} (keys : members.InOrder) (values : ∀ m ∈ members, Ordered m.2) :
      Ordered (.object members)

theorem ordered_keys {members : Members} (h : (object members).Ordered) : members.InOrder := by
  cases h with
  | object keys _ => exact keys

theorem ordered_item {items : List Json} {v : Json} (h : (array items).Ordered) (hv : v ∈ items) :
    v.Ordered := by
  cases h with
  | array values => exact values v hv

/-- The values in an ordered object are in order. -/
theorem ordered_valueOf {members : Members} (h : (object members).Ordered) (name : String) :
    (members.valueOf name).Ordered := by
  rw [Members.valueOf]
  cases hv : members.named? name with
  | none => exact .null
  | some v =>
      obtain ⟨key, _, hmem⟩ := Members.mem_of_named? hv
      cases h with
      | object _ values => exact values _ hmem

mutual

/-- Whether a value is in order at every depth. -/
def isOrdered : Json → Bool
  | .null | .bool _ | .number _ | .string _ => true
  | .array items => areOrdered items
  | .object members => decide (Members.InOrder members) && areMembersOrdered members
termination_by structural v => v

/-- Whether all items of an array are in order. -/
def areOrdered : List Json → Bool
  | [] => true
  | v :: rest => isOrdered v && areOrdered rest
termination_by structural items => items

/-- Whether the values of all members are in order. -/
def areMembersOrdered : List (String × Json) → Bool
  | [] => true
  | (_, v) :: rest => isOrdered v && areMembersOrdered rest
termination_by structural members => members

end

mutual

theorem isOrdered_iff : ∀ v : Json, isOrdered v = true ↔ v.Ordered
  | .null => iff_of_true rfl .null
  | .bool b => iff_of_true rfl (.bool b)
  | .number n => iff_of_true rfl (.number n)
  | .string s => iff_of_true rfl (.string s)
  | .array items => by
      rw [isOrdered, areOrdered_iff items]
      exact ⟨.array, fun h => match h with | .array values => values⟩
  | .object members => by
      rw [isOrdered, Bool.and_eq_true, decide_eq_true_iff, areMembersOrdered_iff members]
      exact ⟨fun h => .object h.1 h.2,
        fun h => match h with | .object keys values => ⟨keys, values⟩⟩
termination_by structural v => v

theorem areOrdered_iff : ∀ items : List Json, areOrdered items = true ↔ ∀ v ∈ items, v.Ordered
  | [] => iff_of_true rfl nofun
  | v :: rest => by
      rw [areOrdered, Bool.and_eq_true, isOrdered_iff v, areOrdered_iff rest, List.forall_mem_cons]
termination_by structural items => items

theorem areMembersOrdered_iff : ∀ members : List (String × Json),
    areMembersOrdered members = true ↔ ∀ m ∈ members, m.2.Ordered
  | [] => iff_of_true rfl nofun
  | (_, v) :: rest => by
      rw [areMembersOrdered, Bool.and_eq_true, isOrdered_iff v, areMembersOrdered_iff rest,
        List.forall_mem_cons]
termination_by structural members => members

end

instance (v : Json) : Decidable v.Ordered := decidable_of_iff _ (isOrdered_iff v)

end Json

namespace Members

variable {members : Members} {key : String} {v : Json}

/-- In order, a member that is put where it stands changes nothing. -/
theorem put_of_get? (h : members.InOrder) (hget : members.get? key = some v) :
    members.put key v = members := by
  fun_induction put key v members with
  | case1 => cases hget
  | case2 w rest =>
      rw [get?_cons, if_pos rfl] at hget
      cases hget
      rfl
  | case3 k w rest hne hlt =>
      rw [get?_cons, if_neg (Ne.symm hne)] at hget
      have hafter : k < key := (List.pairwise_cons.mp h).1 _ (mem_of_get? hget)
      exact absurd hlt (String.lt_asymm hafter)
  | case4 k w rest hne _ ih =>
      rw [get?_cons, if_neg (Ne.symm hne)] at hget
      rw [ih (List.pairwise_cons.mp h).2 hget]

end Members

end Scim
