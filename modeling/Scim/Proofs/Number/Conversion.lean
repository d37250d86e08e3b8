import Mathlib.Data.Nat.Digits.Defs
import Mathlib.Tactic.Ring
import Scim.Evaluation.Comparison

/-!
# Which numbers are decimals

A decimal has a mantissa of 96 bits, and every number below that is one: an integer
(`Comparison.isSome_decimal?`) and a double (`Decimal.isSome_ofDouble?`), whatever its sign and
however small it is.

The way there is through texts.  A double is written with its shortest digits, and they are read
again.  Digits are read as their number as long as it fits (`Decimal.Reading.run_whole`,
`Decimal.Reading.run_fraction`), so what is left to show is that the digits fit.  They are those of
a number in the interval that reads back as the double, and below a power of two that interval does
not reach it (`Double.lt_of_onGrid?`).  A number with digits behind the point may be too long to be
read, and then it is converted another way that always gives a decimal.
-/

namespace Scim

namespace Decimal

variable {r : Reading} {ds fs : List Char} {negative : Bool} {c : Char}

/-! ## Reading digits -/

namespace Reading

@[simp] theorem mantissa_push (r : Reading) (c : Char) :
    (r.push c).mantissa = 10 * r.mantissa + Digits.value c := by rw [push]

@[simp] theorem point_push (r : Reading) (c : Char) : (r.push c).point = r.point := by rw [push]

@[simp] theorem scale_push (r : Reading) (c : Char) :
    (r.push c).scale = if r.point then r.scale + 1 else 0 := by rw [push]

@[simp] theorem started_push (r : Reading) (c : Char) : (r.push c).started = true := by rw [push]

/-- What has been read after some more digits. -/
def pushAll (r : Reading) (ds : List Char) : Reading := ds.foldl push r

theorem pushAll_nil (r : Reading) : r.pushAll [] = r := by rw [pushAll, List.foldl_nil]

theorem pushAll_cons (r : Reading) (c : Char) (ds : List Char) :
    r.pushAll (c :: ds) = (r.push c).pushAll ds := by rw [pushAll, List.foldl_cons, pushAll]

theorem mantissa_pushAll (r : Reading) (ds : List Char) :
    (r.pushAll ds).mantissa = Nat.ofDigitChars 10 ds r.mantissa := by
  induction ds generalizing r with
  | nil => rw [pushAll_nil, Nat.ofDigitChars_nil]
  | cons c ds ih =>
      rw [pushAll_cons, ih, mantissa_push, Nat.ofDigitChars_cons]
      rfl

theorem mantissa_le_pushAll (r : Reading) (ds : List Char) :
    r.mantissa ≤ (r.pushAll ds).mantissa := by
  induction ds generalizing r with
  | nil => rw [pushAll_nil]
  | cons c ds ih =>
      have hpush : r.mantissa ≤ (r.push c).mantissa := by
        rw [mantissa_push]
        omega
      rw [pushAll_cons]
      exact hpush.trans (ih (r.push c))

theorem point_pushAll (r : Reading) (ds : List Char) : (r.pushAll ds).point = r.point := by
  induction ds generalizing r with
  | nil => rw [pushAll_nil]
  | cons c ds ih => rw [pushAll_cons, ih, point_push]

theorem started_pushAll (h : r.started = true) (ds : List Char) :
    (r.pushAll ds).started = true := by
  induction ds generalizing r with
  | nil => rwa [pushAll_nil]
  | cons c ds ih =>
      rw [pushAll_cons]
      exact ih (started_push r c)

/-- The digits behind the point are counted, those in front of it are not. -/
theorem scale_pushAll (hscale : r.point = false → r.scale = 0) (ds : List Char) :
    (r.pushAll ds).scale = if r.point then r.scale + ds.length else 0 := by
  induction ds generalizing r with
  | nil => cases hpoint : r.point <;> simp [pushAll_nil, hscale, hpoint]
  | cons c ds ih =>
      rw [pushAll_cons, ih (by simp), point_push, scale_push, List.length_cons]
      cases hpoint : r.point with
      | false => simp
      | true => simp; omega

/-- Digits in front of the point are read as long as the number fits. -/
theorem run_whole (hpoint : r.point = false) (hscale : r.scale = 0)
    (hdigits : ∀ c ∈ ds, c.isDigit = true) (hbound : (r.pushAll ds).mantissa < bound)
    (rest : List Char) : r.run (ds ++ rest) = (r.pushAll ds).run rest := by
  induction ds generalizing r with
  | nil => rw [pushAll_nil, List.nil_append]
  | cons c ds ih =>
      obtain ⟨hc, hdigits⟩ := List.forall_mem_cons.mp hdigits
      rw [pushAll_cons] at hbound ⊢
      have hfits : (r.push c).mantissa < bound :=
        Nat.lt_of_le_of_lt (mantissa_le_pushAll ..) hbound
      have hmore : ¬ (bound ≤ (r.push c).mantissa ∨ maxScale ≤ r.scale) := by
        rw [hscale, not_or, Nat.not_le]
        exact ⟨hfits, by decide⟩
      have hpoint' : (r.push c).point = false := by rw [point_push, hpoint]
      have hscale' : (r.push c).scale = 0 := by rw [scale_push, hpoint, if_neg Bool.false_ne_true]
      rw [List.cons_append, run, if_pos hc, if_neg hmore, if_neg (by simp [hpoint])]
      exact ih hpoint' hscale' hdigits hbound

/-- Digits behind the point are read as long as the number and its scale fit. -/
theorem run_fraction (hpoint : r.point = true) (hdigits : ∀ c ∈ ds, c.isDigit = true)
    (hbound : (r.pushAll ds).mantissa < bound) (hscale : r.scale + ds.length ≤ maxScale) :
    r.run ds = some (r.pushAll ds) := by
  induction ds generalizing r with
  | nil => rw [pushAll_nil, run]
  | cons c ds ih =>
      obtain ⟨hc, hdigits⟩ := List.forall_mem_cons.mp hdigits
      rw [pushAll_cons] at hbound ⊢
      rw [List.length_cons] at hscale
      have hfits : (r.push c).mantissa < bound :=
        Nat.lt_of_le_of_lt (mantissa_le_pushAll ..) hbound
      have hmore : ¬ (bound ≤ (r.push c).mantissa ∨ maxScale ≤ r.scale) := by omega
      have hpoint' : (r.push c).point = true := by rw [point_push, hpoint]
      have hscale' : (r.push c).scale = r.scale + 1 := by rw [scale_push, if_pos hpoint]
      rw [run, if_pos hc, if_neg hmore]
      split
      case isTrue hfull =>
          -- The scale is full, so this digit is the last one.
          have hlast : ds = [] := List.eq_nil_of_length_eq_zero (by omega)
          rw [hlast]
          rfl
      case isFalse => exact ih hpoint' hdigits hbound (by omega)

/-- The point is passed once. -/
theorem run_point (hpoint : r.point = false) (rest : List Char) :
    r.run ('.' :: rest) = Reading.run { r with point := true } rest := by
  rw [run, if_neg (by decide), if_pos (by simp [hpoint])]

/-- A zero that comes right behind the point is read or dropped. -/
theorem exists_run_zero (hpoint : r.point = true) (hscale : r.scale = 0)
    (hstarted : r.started = true) : ∃ r', r.run ['0'] = some r' ∧ r'.started = true := by
  by_cases hfull : bound ≤ (r.push '0').mantissa ∨ maxScale ≤ r.scale
  · rw [run, if_pos (by decide), if_pos hfull, if_pos hpoint]
    exact ⟨r, rfl, hstarted⟩
  · have hroom : ¬ (r.point = true ∧ maxScale ≤ (r.push '0').scale) := by
      rw [scale_push, if_pos hpoint, hscale]
      simp [maxScale]
    rw [run, if_pos (by decide), if_neg hfull, if_neg hroom, run]
    exact ⟨r.push '0', rfl, started_push r '0'⟩

end Reading

/-! ## Plain texts -/

/-- Digits that fit are read as their number. -/
theorem run_digits (hne : ds ≠ []) (hdigits : ∀ c ∈ ds, c.isDigit = true)
    (hbound : Digits.number ds < bound) (rest : List Char) :
    ∃ r : Reading, Reading.run {} (ds ++ rest) = r.run rest ∧ r.mantissa = Digits.number ds ∧
      r.scale = 0 ∧ r.point = false ∧ r.started = true := by
  have hmantissa : (Reading.pushAll {} ds).mantissa = Digits.number ds :=
    Reading.mantissa_pushAll ..
  refine ⟨Reading.pushAll {} ds, ?_, hmantissa, ?_, ?_, ?_⟩
  · exact Reading.run_whole rfl rfl hdigits (hmantissa ▸ hbound) rest
  · rw [Reading.scale_pushAll fun _ => rfl]
    rfl
  · rw [Reading.point_pushAll]
  · cases ds with
    | nil => exact absurd rfl hne
    | cons c ds =>
        rw [Reading.pushAll_cons]
        exact Reading.started_pushAll (Reading.started_push ..) ds

/-- Digits that fit make a decimal. -/
theorem ofDigits?_whole (hne : ds ≠ []) (hdigits : ∀ c ∈ ds, c.isDigit = true)
    (hbound : Digits.number ds < bound) :
    ofDigits? negative ds = some (ofParts negative (Digits.number ds) 0) := by
  obtain ⟨r, hrun, hmantissa, hscale, _, hstarted⟩ := run_digits hne hdigits hbound []
  rw [List.append_nil, Reading.run] at hrun
  simp only [ofDigits?, hrun, hstarted, if_true, hmantissa, hscale]

/-- Digits that fit make a decimal with a zero behind the point. -/
theorem isSome_ofDigits?_zero (negative : Bool) (hne : ds ≠ [])
    (hdigits : ∀ c ∈ ds, c.isDigit = true) (hbound : Digits.number ds < bound) :
    (ofDigits? negative (ds ++ ['.', '0'])).isSome = true := by
  obtain ⟨r, hrun, _, hscale, hpoint, hstarted⟩ := run_digits hne hdigits hbound ['.', '0']
  obtain ⟨r', hrun', hstarted'⟩ :=
    Reading.exists_run_zero (r := { r with point := true }) rfl hscale hstarted
  rw [Reading.run_point hpoint, hrun'] at hrun
  simp [ofDigits?, hrun, hstarted']

/-- Digits around a point make a decimal if their number fits and there are not too many of them
behind the point. -/
theorem ofDigits?_point (hne : ds ≠ []) (hdigits : ∀ c ∈ ds ++ fs, c.isDigit = true)
    (hbound : Digits.number (ds ++ fs) < bound) (hscale : fs.length ≤ maxScale) :
    ofDigits? negative (ds ++ '.' :: fs) =
      some (ofParts negative (Digits.number (ds ++ fs)) fs.length) := by
  obtain ⟨hwhole, hfraction⟩ := List.forall_mem_append.mp hdigits
  have happend : Digits.number (ds ++ fs) = Nat.ofDigitChars 10 fs (Digits.number ds) :=
    List.foldl_append
  have hsmaller : Digits.number ds < bound := by
    refine Nat.lt_of_le_of_lt ?_ hbound
    have hle := Reading.mantissa_le_pushAll { mantissa := Digits.number ds } fs
    rwa [Reading.mantissa_pushAll, ← happend] at hle
  obtain ⟨r, hrun, hmantissa, hr, hpoint, hstarted⟩ := run_digits hne hwhole hsmaller ('.' :: fs)
  let behind : Reading := { r with point := true }
  have hnumber : (behind.pushAll fs).mantissa = Digits.number (ds ++ fs) := by
    rw [Reading.mantissa_pushAll, happend, ← hmantissa]
  have hlength : (behind.pushAll fs).scale = fs.length := by
    rw [Reading.scale_pushAll (by simp [behind]), if_pos rfl, hr, Nat.zero_add]
  have hread : behind.run fs = some (behind.pushAll fs) :=
    Reading.run_fraction rfl hfraction (hnumber ▸ hbound) (by rwa [hr, Nat.zero_add])
  have hstarted' : (behind.pushAll fs).started = true :=
    Reading.started_pushAll (r := behind) hstarted fs
  rw [Reading.run_point hpoint, hread] at hrun
  simp only [ofDigits?, hrun, hstarted', if_true, hnumber, hlength]

/-- A sign in front of a digit is the sign of the decimal. -/
theorem ofPlain?_signed {s : List Char} (hc : c.isDigit = true) :
    ofPlain? ((if negative then ['-'] else []) ++ c :: s) = ofDigits? negative (c :: s) := by
  have hminus : c ≠ '-' := by
    rintro rfl
    cases hc
  have hplus : c ≠ '+' := by
    rintro rfl
    cases hc
  cases negative with
  | true => rfl
  | false =>
      rw [if_neg Bool.false_ne_true, List.nil_append, ofPlain?.eq_def]
      split
      · exact absurd (List.cons_eq_cons.mp ‹_›).1 hminus
      · exact absurd (List.cons_eq_cons.mp ‹_›).1 hplus
      · rfl

/-! ## Scientific texts -/

theorem number_toDigits (n : Nat) : Digits.number (Nat.toDigits 10 n) = n :=
  Nat.ofDigitChars_ten_toDigits

theorem isDigit_toDigits (n : Nat) : ∀ c ∈ Nat.toDigits 10 n, c.isDigit = true := fun _ hc =>
  Nat.isDigit_of_mem_toDigits (by decide) (by decide) hc

theorem toDigits_ne_nil (n : Nat) : Nat.toDigits 10 n ≠ [] :=
  List.ne_nil_of_length_pos Nat.length_toDigits_pos

theorem unsigned?_toDigits (n : Nat) : Digits.unsigned? ('+' :: Nat.toDigits 10 n) = some n := by
  have hall : (Nat.toDigits 10 n).all Char.isDigit = true :=
    List.all_eq_true.mpr (isDigit_toDigits n)
  rw [Digits.unsigned?, Digits.number?, hall, number_toDigits]
  simp [toDigits_ne_nil n]

/-- A decimal with a positive exponent behind it is multiplied. -/
theorem ofScientific?_up {s : List Char} {d : Decimal} (hs : ∀ c ∈ s, c ≠ 'e' ∧ c ≠ 'E')
    (hd : ofPlain? s = some d) (n : Nat) :
    ofScientific? (s ++ 'e' :: '+' :: Nat.toDigits 10 n) = d.scaledUp? n := by
  have hmarks : ∀ c ∈ s, (!(c == 'e' || c == 'E')) = true := by
    intro c hc
    simpa using hs c hc
  unfold ofScientific?
  have hbase : (s ++ 'e' :: '+' :: Nat.toDigits 10 n).takeWhile (fun c => !(c == 'e' || c == 'E')) =
      s := by
    rw [List.takeWhile_append_of_pos hmarks, List.takeWhile_cons_of_neg (by decide),
      List.append_nil]
  have hrest : (s ++ 'e' :: '+' :: Nat.toDigits 10 n).dropWhile (fun c => !(c == 'e' || c == 'E')) =
      'e' :: '+' :: Nat.toDigits 10 n := by
    rw [List.dropWhile_append_of_pos hmarks, List.dropWhile_cons_of_neg (by decide)]
  dsimp only
  rw [hbase, hrest]
  simp [hd, unsigned?_toDigits]

/-- The digits in front of an exponent, with a point behind the first one. -/
theorem ofPlain?_leading (negative : Bool) (hdigits : ∀ x ∈ c :: fs, x.isDigit = true)
    (hbound : Digits.number (c :: fs) < bound) (hscale : fs.length ≤ maxScale) :
    ∃ s, (∀ x ∈ s, x ≠ 'e' ∧ x ≠ 'E') ∧
      (∀ n : Nat, Double.scientific (c :: fs) n = s ++ 'e' :: '+' :: Nat.toDigits 10 n) ∧
      ofPlain? ((if negative then ['-'] else []) ++ s) =
        some (ofParts negative (Digits.number (c :: fs)) fs.length) := by
  have hc : c.isDigit = true := hdigits c List.mem_cons_self
  have hmark : ∀ x : Char, x.isDigit = true → x ≠ 'e' ∧ x ≠ 'E' := by
    intro x hx
    constructor <;> rintro rfl <;> cases hx
  have hexponent : ∀ n : Nat, ¬ (n : Int) < 0 := fun n => by omega
  cases fs with
  | nil =>
      refine ⟨[c], by simpa using hmark c hc, fun n => ?_, ?_⟩
      · simp [Double.scientific, hexponent]
      · rw [ofPlain?_signed hc, ofDigits?_whole (by simp) hdigits hbound]
        rfl
  | cons f fs =>
      refine ⟨c :: '.' :: f :: fs, fun x hx => ?_, fun n => ?_, ?_⟩
      · rcases List.mem_cons.mp hx with rfl | hx
        · exact hmark x hc
        · rcases List.mem_cons.mp hx with rfl | hx
          · decide
          · exact hmark x (hdigits x (List.mem_cons_of_mem c hx))
      · simp [Double.scientific, hexponent]
      · rw [ofPlain?_signed hc]
        exact ofDigits?_point (List.cons_ne_nil c []) hdigits hbound hscale

/-- A decimal times a power of ten that fits. -/
theorem isSome_scaledUp? {d : Decimal} {k : Nat} (hscale : d.scale + k ≤ maxScale)
    (hbound : d.mantissa * 10 ^ k < bound) : (d.scaledUp? (d.scale + k)).isSome = true := by
  unfold scaledUp?
  split
  · rfl
  · rw [if_neg (Nat.not_lt.mpr hscale), Nat.add_sub_cancel_left]
    have hfits : d.mantissa * Nat.pow 10 k < bound := hbound
    dsimp only
    rw [if_pos hfits]
    rfl

/-! ## Texts of doubles -/

theorem bound_eq : bound = 2 ^ 96 := by
  rw [bound]
  rfl

theorem number_append_zeros (ds : List Char) (k : Nat) :
    Digits.number (ds ++ List.replicate k '0') = Digits.number ds * 10 ^ k := by
  have happend : Digits.number (ds ++ List.replicate k '0') =
      Nat.ofDigitChars 10 (List.replicate k '0') (Digits.number ds) := List.foldl_append
  rw [happend, Nat.ofDigitChars_replicate_zero, Nat.mul_comm]

theorem length_toDigits_le {d k : Nat} (hpos : 0 < d) (h : d * 10 ^ k < bound) :
    (Nat.toDigits 10 d).length + k ≤ maxScale + 1 := by
  have hfits : d * 10 ^ k < 10 ^ (maxScale + 1) :=
    h.trans (by rw [bound_eq, maxScale]; norm_num)
  have hk : k < maxScale + 1 := by
    refine (Nat.pow_lt_pow_iff_right (by decide : 1 < 10)).mp (Nat.lt_of_le_of_lt ?_ hfits)
    exact Nat.le_mul_of_pos_left _ hpos
  have hd : d < 10 ^ (maxScale + 1 - k) := by
    rw [← Nat.add_sub_of_le hk.le, Nat.pow_add, Nat.mul_comm] at hfits
    exact Nat.lt_of_mul_lt_mul_left hfits
  have hlength := (Nat.length_toDigits_le_iff (by decide) (Nat.sub_pos_of_lt hk)).mpr hd
  omega

theorem isSome_orElse {α : Type} {x y : Option α} (h : x.isSome = true ∨ y.isSome = true) :
    (x <|> y).isSome = true := by
  cases x <;> simp_all

/-- Digits with zeros up to the point make a decimal. -/
theorem isSome_positional {k : Nat} (negative : Bool) (hdigits : ∀ x ∈ c :: fs, x.isDigit = true)
    (hbound : Digits.number (c :: fs) * 10 ^ k < bound) :
    (ofPlain? ((if negative then ['-'] else []) ++
      Double.positional (c :: fs) ((fs.length + k : Nat) + 1))).isSome = true := by
  have htext : Double.positional (c :: fs) ((fs.length + k : Nat) + 1) =
      c :: (fs ++ List.replicate k '0' ++ ['.', '0']) := by
    have hzeros : (((fs.length + k : Nat) + 1 : Int) - ((c :: fs).length : Nat)).toNat = k := by
      rw [List.length_cons]
      omega
    unfold Double.positional
    rw [if_neg (by omega), if_pos (by rw [List.length_cons]; omega), hzeros]
    rfl
  have hzeros : ∀ x ∈ (c :: fs) ++ List.replicate k '0', x.isDigit = true := by
    refine List.forall_mem_append.mpr ⟨hdigits, fun x hx => ?_⟩
    rw [List.eq_of_mem_replicate hx]
    decide
  rw [htext, ofPlain?_signed (hdigits c List.mem_cons_self)]
  exact isSome_ofDigits?_zero negative (by simp) hzeros (by rwa [number_append_zeros])

/-- Digits with an exponent that is not too large make a decimal. -/
theorem isSome_scientific {k : Nat} (negative : Bool) (hdigits : ∀ x ∈ c :: fs, x.isDigit = true)
    (hbound : Digits.number (c :: fs) * 10 ^ k < bound) (hscale : fs.length + k ≤ maxScale) :
    (ofScientific? ((if negative then ['-'] else []) ++
      Double.scientific (c :: fs) (fs.length + k : Nat))).isSome = true := by
  have hfits : Digits.number (c :: fs) < bound :=
    Nat.lt_of_le_of_lt (Nat.le_mul_of_pos_right _ (by positivity)) hbound
  obtain ⟨s, hmarks, htext, hs⟩ := ofPlain?_leading negative hdigits hfits (by omega)
  have hsign : ∀ x ∈ (if negative then ['-'] else []) ++ s, x ≠ 'e' ∧ x ≠ 'E' := by
    refine List.forall_mem_append.mpr ⟨fun x hx => ?_, hmarks⟩
    cases negative with
    | true =>
        rw [List.mem_singleton.mp hx]
        decide
    | false => cases hx
  rw [htext, ← List.append_assoc, ofScientific?_up hsign hs]
  exact isSome_scaledUp? (d := ofParts negative _ fs.length) hscale hbound

/-- The text of a whole number that fits is a decimal. -/
theorem isSome_ofText? {d k : Nat} (negative : Bool) (hpos : 0 < d) (h : d * 10 ^ k < bound) :
    let digits := Nat.toDigits 10 d
    let point : Int := digits.length + k
    (ofText? ((if negative then ['-'] else []) ++
      if -5 < point ∧ point ≤ 16 then Double.positional digits point
      else Double.scientific digits (point - 1))).isSome = true := by
  intro digits point
  have hnumber : Digits.number digits = d := number_toDigits d
  have hlength : digits.length + k ≤ maxScale + 1 := length_toDigits_le hpos h
  have hall : ∀ x ∈ digits, x.isDigit = true := isDigit_toDigits d
  obtain ⟨c, fs, hdigits⟩ : ∃ c fs, digits = c :: fs :=
    List.exists_cons_of_ne_nil (toDigits_ne_nil d)
  have hpoint : point = (fs.length + k : Nat) + 1 := by
    simp only [point, hdigits, List.length_cons]
    omega
  rw [hdigits] at hnumber hlength hall ⊢
  rw [List.length_cons] at hlength
  rw [hpoint, add_sub_cancel_right, ofText?]
  by_cases hpositional :
      -5 < ((fs.length + k : Nat) + 1 : Int) ∧ ((fs.length + k : Nat) + 1 : Int) ≤ 16
  · rw [if_pos hpositional]
    exact isSome_orElse (.inl (isSome_positional negative hall (by rwa [hnumber])))
  · rw [if_neg hpositional]
    exact isSome_orElse (.inr (isSome_scientific negative hall (by rwa [hnumber]) (by omega)))

end Decimal

/-! ## Digits of doubles -/

namespace Double

variable {x : Double} {d k : Nat}

/-- The double lies below a bound, whatever its sign. -/
def Below (x : Double) (b : Nat) : Prop := x.fraction.1 < b * x.fraction.2

theorem shifted_natCast (num den p : Nat) : shifted num den p = (num * 2 ^ p, den) := by
  rw [shifted, if_pos (Int.natCast_nonneg p)]
  rfl

theorem shifted_neg (num den p : Nat) : shifted num den (-p) = (num, den * 2 ^ p) := by
  cases p with
  | zero => simpa using shifted_natCast num den 0
  | succ p =>
      rw [shifted, if_neg (by omega), neg_neg]
      rfl

/-- The shortest digits are found on a grid, unless none is fine enough. -/
theorem shortest_cases (x : Double) :
    x.shortest = (0, 0) ∨ ∃ d k, x.shortest = (d, k) ∧ x.onGrid? k = some d := by
  unfold shortest
  cases hfound : (List.range 21).findSome? fun (i : Nat) =>
    (x.onGrid? (x.topPower - i)).map fun d => (d, x.topPower - i) with
  | none => exact .inl (by dsimp only; rw [hfound]; rfl)
  | some p =>
      obtain ⟨i, _, hi⟩ := List.exists_of_findSome?_eq_some hfound
      obtain ⟨d, hd, rfl⟩ := Option.map_eq_some_iff.mp hi
      exact .inr ⟨d, _, by dsimp only; rw [hfound]; rfl, hd⟩

/-- A point of a grid of whole numbers that is found reads back as the double. -/
theorem between_of_onGrid? (h : x.onGrid? k = some d) :
    x.interval.1 * (shifted 1 1 (x.exponent - 2)).1 ≤
        d * 10 ^ k * (shifted 1 1 (x.exponent - 2)).2 ∧
      d * 10 ^ k * (shifted 1 1 (x.exponent - 2)).2 ≤
        x.interval.2.2 * (shifted 1 1 (x.exponent - 2)).1 := by
  have hinside := List.find?_some h
  have hk : (0 : Int) ≤ k := Int.natCast_nonneg k
  have hunit : d * 10 ^ k * (shifted 1 1 (x.exponent - 2)).2 =
      d * ((shifted 1 1 (x.exponent - 2)).2 * Nat.pow 10 k) := by
    rw [Nat.mul_comm _ (Nat.pow 10 k), ← Nat.mul_assoc]
    rfl
  rw [hunit]
  simp only [if_pos hk, Int.toNat_natCast] at hinside
  split at hinside <;> simp only [Bool.and_eq_true, decide_eq_true_eq] at hinside
  · exact hinside
  · exact ⟨hinside.1.le, hinside.2.le⟩

/-- Only zero has the digit zero. -/
theorem pos_of_onGrid? (hx : x.isZero = false) (h : x.onGrid? k = some d) : 0 < d := by
  obtain ⟨hlow, _⟩ := between_of_onGrid? h
  have hmantissa : x.mantissa ≠ 0 := by simpa [isZero] using hx
  have hend : 0 < x.interval.1 := by
    unfold interval
    dsimp only
    split <;> omega
  have hscale : 0 < (shifted 1 1 (x.exponent - 2)).1 := by
    unfold shifted
    split
    · exact Nat.mul_pos Nat.one_pos (Nat.pow_pos Nat.two_pos)
    · exact Nat.one_pos
  have hpos := Nat.lt_of_lt_of_le (Nat.mul_pos hend hscale) hlow
  exact Nat.pos_of_ne_zero fun hd => by simp [hd] at hpos

/-- A point that reads back as a double is less than half a unit above its mantissa. -/
theorem lt_of_scaled_le {m y p n : Nat} (hm : 0 < m) (hy : y ≤ (4 * m + 2) * 2 ^ p)
    (hbelow : m * 2 ^ (p + 2) < 2 ^ n) : y < 2 ^ n := by
  have hp : p + 2 < n := by
    refine (Nat.pow_lt_pow_iff_right (by decide : 1 < 2)).mp (Nat.lt_of_le_of_lt ?_ hbelow)
    exact Nat.le_mul_of_pos_left _ hm
  obtain ⟨q, rfl⟩ := Nat.exists_eq_add_of_le hp.le
  rw [Nat.pow_add 2 (p + 2) q, Nat.mul_comm (2 ^ (p + 2))] at hbelow ⊢
  have hmantissa : m + 1 ≤ 2 ^ q := Nat.lt_of_mul_lt_mul_right hbelow
  calc y ≤ (4 * m + 2) * 2 ^ p := hy
    _ < 4 * (m + 1) * 2 ^ p := Nat.mul_lt_mul_of_pos_right (by omega) (by positivity)
    _ = (m + 1) * 2 ^ (p + 2) := by ring
    _ ≤ 2 ^ q * 2 ^ (p + 2) := Nat.mul_le_mul_right _ hmantissa

/-- The same where the mantissa has binary places behind the point. -/
theorem lt_of_le_scaled {m y p n : Nat} (hy : y * 2 ^ (p + 2) ≤ 4 * m + 2)
    (hbelow : m < 2 ^ n * 2 ^ p) : y < 2 ^ n := by
  have hscaled : y * 2 ^ (p + 2) < 2 ^ n * 2 ^ (p + 2) :=
    calc y * 2 ^ (p + 2) ≤ 4 * m + 2 := hy
      _ < 4 * (2 ^ n * 2 ^ p) := by omega
      _ = 2 ^ n * 2 ^ (p + 2) := by ring
  exact Nat.lt_of_mul_lt_mul_right hscaled

/-- The digits of a double below a power of two stay below it. -/
theorem lt_of_onGrid? (hx : x.isZero = false) (h : x.onGrid? k = some d) {n : Nat}
    (hbelow : x.Below (2 ^ n)) : d * 10 ^ k < 2 ^ n := by
  obtain ⟨_, hhigh⟩ := between_of_onGrid? h
  have hmantissa : 0 < x.mantissa := by
    refine Nat.pos_of_ne_zero fun hzero => ?_
    simp [isZero, hzero] at hx
  have hends : x.interval.2.2 = 4 * x.mantissa + 2 := rfl
  rw [hends] at hhigh
  unfold Below fraction at hbelow
  generalize d * 10 ^ k = y at hhigh ⊢
  obtain ⟨p, hp⟩ | hone | ⟨p, hp⟩ : (∃ p : Nat, x.exponent = (p + 2 : Nat)) ∨
      x.exponent = (1 : Nat) ∨ ∃ p : Nat, x.exponent = -(p : Int) := by
    rcases lt_trichotomy x.exponent 1 with hsmall | hone | hlarge
    · exact .inr (.inr ⟨(-x.exponent).toNat, by omega⟩)
    · exact .inr (.inl hone)
    · exact .inl ⟨(x.exponent - 2).toNat, by omega⟩
  · rw [hp, shifted_natCast] at hbelow
    have hquarter : x.exponent - 2 = (p : Nat) := by omega
    rw [hquarter, shifted_natCast] at hhigh
    simp only [Nat.one_mul, Nat.mul_one] at hhigh hbelow
    exact lt_of_scaled_le hmantissa hhigh hbelow
  · rw [hone, shifted_natCast] at hbelow
    have hquarter : x.exponent - 2 = -(1 : Nat) := by omega
    rw [hquarter, shifted_neg] at hhigh
    -- Both numbers are even, so there is none between them.
    cases n with
    | zero => omega
    | succ n => omega
  · rw [hp, shifted_neg] at hbelow
    have hquarter : x.exponent - 2 = -((p + 2 : Nat) : Int) := by omega
    rw [hquarter, shifted_neg] at hhigh
    simp only [Nat.one_mul, Nat.mul_one] at hhigh hbelow
    exact lt_of_le_scaled hhigh hbelow

end Double

/-! ## Numbers that are decimals -/

namespace Decimal

variable {x : Double}

/-- The text of a zero is a decimal. -/
theorem isSome_ofText?_zero (negative : Bool) :
    (ofText? ((if negative then ['-'] else []) ++ ['0', '.', '0'])).isSome = true := by
  have hdigits : ∀ c ∈ ['0'], c.isDigit = true := List.forall_mem_singleton.mpr rfl
  have hbound : Digits.number ['0'] < bound := by
    rw [bound_eq]
    decide
  have hread := isSome_ofDigits?_zero negative (List.cons_ne_nil '0' []) hdigits hbound
  rw [ofText?, ofPlain?_signed (by decide)]
  exact isSome_orElse (.inl hread)

/-- Every double that fits is a decimal. -/
theorem isSome_ofDouble? (h : x.Below (2 ^ 96)) : (ofDouble? x).isSome = true := by
  rw [ofDouble?, Double.text]
  dsimp only
  cases hzero : x.isZero with
  | true =>
      rw [if_pos rfl, String.toList_ofList]
      exact isSome_orElse (.inl (isSome_ofText?_zero x.negative))
  | false =>
      rw [if_neg Bool.false_ne_true]
      rcases x.shortest_cases with hshort | ⟨d, k, hshort, hgrid⟩
      · rw [hshort, String.toList_ofList]
        exact isSome_orElse (.inl (isSome_ofText?_zero x.negative))
      · rcases lt_or_ge k 0 with hk | hk
        · refine isSome_orElse (.inr ?_)
          simp [ofTiny?, hshort, Int.not_le.mpr hk]
        · obtain ⟨k, rfl⟩ := Int.eq_ofNat_of_zero_le hk
          rw [hshort, String.toList_ofList]
          refine isSome_orElse (.inl (isSome_ofText? x.negative ?_ ?_))
          · exact Double.pos_of_onGrid? hzero hgrid
          · exact bound_eq ▸ Double.lt_of_onGrid? hzero hgrid h

end Decimal

/-- The number lies below a bound, whatever its sign. -/
def Json.Number.Below (n : Json.Number) (b : Nat) : Prop :=
  match n with
  | .integer i => i.natAbs < b
  | .float x => x.Below b

namespace Comparison

variable {n : Json.Number}

/-- Every number that fits is a decimal. -/
theorem isSome_decimal? (h : n.Below (2 ^ 96)) : (decimal? n).isSome = true := by
  unfold decimal?
  split
  · rfl
  case h_2 i _ =>
      obtain ⟨c, fs, hdigits⟩ : ∃ c fs, Nat.toDigits 10 i.natAbs = c :: fs :=
        List.exists_cons_of_ne_nil (Decimal.toDigits_ne_nil _)
      have hall : ∀ x ∈ c :: fs, x.isDigit = true := hdigits ▸ Decimal.isDigit_toDigits i.natAbs
      have hnumber : Digits.number (c :: fs) = i.natAbs :=
        hdigits ▸ Decimal.number_toDigits i.natAbs
      have hsign : (if i < 0 then ['-'] else []) = if decide (i < 0) then ['-'] else [] := by simp
      have hfits : Digits.number (c :: fs) < Decimal.bound := by
        rw [hnumber, Decimal.bound_eq]
        exact h
      rw [Json.Number.text, String.toList_ofList, hdigits, hsign,
        Decimal.ofPlain?_signed (hall c List.mem_cons_self),
        Decimal.ofDigits?_whole (by simp) hall hfits]
      rfl
  case h_3 x _ => exact Decimal.isSome_ofDouble? h

end Comparison

end Scim
