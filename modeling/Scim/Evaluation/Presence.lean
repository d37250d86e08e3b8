import Scim.Schema.Attribute

/-!
# Presence

A value is *assigned* when there is something in it.  `null`, an empty text and an empty array
are not assigned.  An array is assigned when one of its elements is, and the value of a complex
attribute when one of its described members is.  Members that no sub-attribute describes do not
count.
-/

namespace Scim.Attribute

mutual

/-- Whether a value of the attribute is assigned. -/
def isAssigned (a : Attribute) : Json → Bool
  | .null => false
  | .bool _ => true
  | .number _ => true
  | .string s => !s.isEmpty
  | .array items => isAnyAssigned a.element items
  | .object members => if a.isComplex then isAnyMemberAssigned a members else !members.isEmpty
termination_by structural v => v

/-- Whether one of the values is assigned. -/
def isAnyAssigned (a : Attribute) : List Json → Bool
  | [] => false
  | v :: rest => isAssigned a v || isAnyAssigned a rest
termination_by structural vs => vs

/-- Whether one of the members is described by a sub-attribute and assigned. -/
def isAnyMemberAssigned (a : Attribute) : List (String × Json) → Bool
  | [] => false
  | (k, v) :: rest =>
      (match a.sub? k with
        | some s => isAssigned s v
        | none => false) || isAnyMemberAssigned a rest
termination_by structural ms => ms

end

/-! ## Presence as existence -/

theorem isAnyAssigned_eq_any (a : Attribute) (vs : List Json) :
    isAnyAssigned a vs = vs.any (isAssigned a) := by
  induction vs with
  | nil => rfl
  | cons v rest ih => rw [isAnyAssigned, List.any_cons, ih]

theorem isAnyMemberAssigned_eq_any (a : Attribute) (ms : List (String × Json)) :
    isAnyMemberAssigned a ms = ms.any fun m => (a.sub? m.1).any fun s => isAssigned s m.2 := by
  induction ms with
  | nil => rfl
  | cons m rest ih =>
    obtain ⟨k, v⟩ := m
    rw [isAnyMemberAssigned, List.any_cons, ih]
    cases a.sub? k <;> rfl

end Scim.Attribute
