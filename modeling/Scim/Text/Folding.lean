/-!
# Names that differ only in ASCII case

Attribute names, object keys and keywords are compared after the letters `A` to `Z` have been
turned into `a` to `z`.  All other characters stand for themselves.  `Text.alike` is equality
of the folded texts, hence an equivalence relation.
-/

namespace Scim.Text

/-- The characters of a text with ASCII capitals turned into small letters. -/
def folded (s : String) : List Char := s.toList.map Char.toLower

/-- Whether two texts are equal ignoring ASCII case. -/
def alike (a b : String) : Bool := folded a == folded b

/-- The text with ASCII capitals turned into small letters. -/
def lowered (s : String) : String := String.ofList (folded s)

/-! ## Folding -/

/-- Only itself is folded to a character that is no small letter. -/
theorem eq_of_toLower {c d : Char} (hd : d.isLower = false) (h : c.toLower = d) : c = d := by
  unfold Char.toLower at h
  split at h
  case isTrue hcase =>
      subst h
      obtain ⟨hlow, hhigh⟩ := hcase
      have hbounds := Bool.and_eq_false_iff.mp hd
      simp only [ge_iff_le, UInt32.le_iff_toNat_le, UInt32.toNat_add, decide_eq_false_iff_not]
        at hlow hhigh hbounds
      simp at hlow hhigh hbounds
      omega
  case isFalse => exact h

/-! ## Alikeness is an equivalence -/

theorem alike_iff {a b : String} : alike a b = true ↔ folded a = folded b := by
  simp [alike]

@[simp] theorem alike_refl (a : String) : alike a a = true := by
  simp [alike]

theorem alike_comm (a b : String) : alike a b = alike b a := by
  simp [alike, BEq.comm]

theorem alike_trans {a b c : String} (h : alike a b = true) (h' : alike b c = true) :
    alike a c = true := by
  rw [alike_iff] at *
  exact h.trans h'

theorem not_alike_of_alike {a b c : String} (h : alike a b = true) (h' : alike b c = false) :
    alike a c = false := by
  refine Bool.eq_false_iff.mpr fun hac => ?_
  rw [alike_trans (alike_comm a b ▸ h) hac] at h'
  cases h'

@[simp] theorem toList_lowered (s : String) : (lowered s).toList = folded s := by
  simp [lowered]

end Scim.Text
