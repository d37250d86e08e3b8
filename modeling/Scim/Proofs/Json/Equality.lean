import Scim.Proofs.Json.Names
import Scim.Proofs.Json.Ordered

/-!
# Objects that are equal

Equality of values keeps apart what `=` keeps apart, except for the two zeros.  Two objects that
are equal have the same keys in the same order, so a name stands for the same key in both, and what
is read there is equal again.
-/

namespace Scim

/-- The zeros are equal to each other and to nothing else. -/
theorem Double.same_congr {x y : Double} (h : x.same y = true) (z : Double) :
    z.same x = z.same y := by
  rcases Bool.or_eq_true_iff.mp h with hzero | heq
  · obtain ⟨hx, hy⟩ := Bool.and_eq_true_iff.mp hzero
    cases hz : z.isZero with
    | true => simp [same, hx, hy, hz]
    | false =>
        have hne : ∀ u : Double, u.isZero = true → (z == u) = false := by
          intro u hu
          refine beq_eq_false_iff_ne.mpr fun heq => ?_
          rw [heq, hu] at hz
          cases hz
        simp [same, hz, hne x hx, hne y hy]
  · rw [beq_iff_eq.mp heq]

namespace Json

/-! ## Equality -/

variable {members others : Members} {key name : String} {v w : Json}

/-- What is equal to an object is an object with equal members. -/
theorem object_of_beq (h : (v == Json.object others) = true) :
    ∃ members : Members, v = .object members ∧ sameMembers members others = true := by
  cases v with
  | object members => exact ⟨members, rfl, h⟩
  | _ => cases h

theorem isNull_eq_of_beq (h : (v == w) = true) : v.isNull = w.isNull := by
  cases v <;> cases w <;> first | rfl | cases h

theorem Number.same_congr {a b : Number} (h : a.same b = true) (n : Number) :
    n.same a = n.same b := by
  cases n with
  | integer i =>
      cases a <;> cases b <;> simp_all [Number.same]
  | float z =>
      cases a with
      | integer => cases b <;> simp_all [Number.same]
      | float x =>
          cases b with
          | integer => cases h
          | float y =>
              exact Double.same_congr h z

mutual

/-- Values that are equal are equal to the same values. -/
theorem same_congr : ∀ (v : Json) {x y : Json}, same x y = true → same v x = same v y
  | .null, x, y, h => by cases x <;> cases y <;> first | rfl | cases h
  | .bool b, x, y, h => by cases x <;> cases y <;> simp_all [same]
  | .number n, x, y, h => by
      cases x <;> cases y <;> first | rfl | cases h | exact Number.same_congr h n
  | .string s, x, y, h => by cases x <;> cases y <;> simp_all [same]
  | .array vs, x, y, h => by
      cases x <;> cases y <;> first | rfl | cases h | exact sameItems_congr vs h
  | .object ms, x, y, h => by
      cases x <;> cases y <;> first | rfl | cases h | exact sameMembers_congr ms h
termination_by structural v => v

theorem sameItems_congr : ∀ (vs : List Json) {xs ys : List Json}, sameItems xs ys = true →
    sameItems vs xs = sameItems vs ys
  | [], xs, ys, h => by cases xs <;> cases ys <;> first | rfl | cases h
  | v :: vs, [], ys, h => by cases ys <;> first | rfl | cases h
  | v :: vs, x :: xs, [], h => by cases h
  | v :: vs, x :: xs, y :: ys, h => by
      simp only [sameItems, Bool.and_eq_true] at h
      simp only [sameItems, same_congr v h.1, sameItems_congr vs h.2]
termination_by structural vs => vs

theorem sameMembers_congr : ∀ (ms : List (String × Json)) {xs ys : List (String × Json)},
    sameMembers xs ys = true → sameMembers ms xs = sameMembers ms ys
  | [], xs, ys, h => by cases xs <;> cases ys <;> first | rfl | cases h
  | (k, v) :: ms, [], ys, h => by cases ys <;> first | rfl | cases h
  | (k, v) :: ms, (l, x) :: xs, [], h => by cases h
  | (k, v) :: ms, (l, x) :: xs, (l', y) :: ys, h => by
      simp only [sameMembers, Bool.and_eq_true, beq_iff_eq] at h
      simp only [sameMembers, h.1.1, same_congr v h.1.2, sameMembers_congr ms h.2]
termination_by structural ms => ms

end

theorem beq_congr (h : (v == w) = true) (u : Json) : (u == v) = (u == w) := same_congr u h

theorem beq_comm (v w : Json) : (v == w) = (w == v) := by
  cases h : v == w with
  | true => rw [beq_congr h w, beq_refl]
  | false =>
      cases h' : w == v with
      | false => rfl
      | true =>
          rw [beq_congr h' v, beq_refl] at h
          cases h

/-! ## Arrays -/

/-- Equal values are in the same arrays. -/
theorem contains_congr (h : (v == w) = true) (items : List Json) :
    items.contains v = items.contains w := by
  induction items with
  | nil => rfl
  | cons u rest ih =>
      rw [List.contains_cons, List.contains_cons, ih, beq_comm v, beq_comm w, beq_congr h]

/-- Every item of one of two equal arrays is equal to an item of the other one. -/
theorem exists_of_sameItems {vs ws : List Json} (h : sameItems vs ws = true) (hv : v ∈ vs) :
    ∃ w ∈ ws, (v == w) = true := by
  induction vs generalizing ws with
  | nil => cases hv
  | cons u vs ih =>
      cases ws with
      | nil => cases h
      | cons w ws =>
          simp only [sameItems, Bool.and_eq_true] at h
          rcases List.mem_cons.mp hv with rfl | hv
          · exact ⟨w, List.mem_cons_self, h.1⟩
          · obtain ⟨w', hw', hbeq⟩ := ih h.2 hv
            exact ⟨w', List.mem_cons_of_mem w hw', hbeq⟩

/-- As many items of one of two equal arrays as of the other pass a test, if the test does not
tell equal values apart. -/
theorem length_filter_of_sameItems {vs ws : List Json} {test : Json → Bool}
    (htest : ∀ v w, (v == w) = true → test v = test w) (h : sameItems vs ws = true) :
    (vs.filter test).length = (ws.filter test).length := by
  induction vs generalizing ws with
  | nil =>
      cases ws with
      | nil => rfl
      | cons => cases h
  | cons v vs ih =>
      cases ws with
      | nil => cases h
      | cons w ws =>
          simp only [sameItems, Bool.and_eq_true] at h
          rw [List.filter_cons, List.filter_cons, htest v w h.1]
          split
          · simp [ih h.2]
          · exact ih h.2

/-! ## Objects -/

theorem keys_of_sameMembers (h : sameMembers members others = true) :
    members.map (·.1) = others.map (·.1) := by
  induction members generalizing others with
  | nil =>
      cases others with
      | nil => rfl
      | cons => cases h
  | cons m rest ih =>
      cases others with
      | nil => cases h
      | cons n rest' =>
          simp only [sameMembers, Bool.and_eq_true, beq_iff_eq] at h
          simp [h.1.1, ih h.2]

theorem get?_of_sameMembers (h : sameMembers members others = true) (key : String) :
    Option.Rel (fun v w : Json => (v == w) = true) (members.get? key) (others.get? key) := by
  induction members generalizing others with
  | nil =>
      cases others with
      | nil => exact .none
      | cons => cases h
  | cons m rest ih =>
      cases others with
      | nil => cases h
      | cons n rest' =>
          simp only [sameMembers, Bool.and_eq_true, beq_iff_eq] at h
          rw [Members.get?_cons, Members.get?_cons, h.1.1]
          split
          · exact .some h.1.2
          · exact ih h.2

end Json

namespace Members

variable {members others : Members}

/-- The key that a name stands for is told by the keys. -/
theorem key?_congr (h : members.map (·.1) = others.map (·.1)) (name : String) :
    members.key? name = others.key? name := by
  have hkey : members.hasKey name = others.hasKey name := by
    simpa [hasKey, List.any_map, Function.comp_def] using congrArg (List.any · (· == name)) h
  have hfind : (members.find? fun m => Text.alike m.1 name).map (·.1) =
      (others.find? fun m => Text.alike m.1 name).map (·.1) := by
    simpa [List.find?_map, Function.comp_def] using congrArg (List.find? (Text.alike · name)) h
  rw [key?, key?, hkey, hfind]

/-- What a name stands for in equal objects is equal. -/
theorem named?_of_sameMembers (h : Json.sameMembers members others = true) (name : String) :
    Option.Rel (fun v w : Json => (v == w) = true) (members.named? name) (others.named? name) := by
  rw [named?, named?, key?_congr (Json.keys_of_sameMembers h)]
  cases others.key? name with
  | none => exact .none
  | some key => exact Json.get?_of_sameMembers h key

theorem valueOf_of_sameMembers (h : Json.sameMembers members others = true) (name : String) :
    (members.valueOf name == others.valueOf name) = true := by
  have hnamed := named?_of_sameMembers h name
  rw [valueOf, valueOf]
  generalize members.named? name = found, others.named? name = found' at hnamed
  cases hnamed with
  | none => rfl
  | some h => exact h

end Members

end Scim
