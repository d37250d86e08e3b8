import Scim.Proofs.Evaluation.Coherence
import Scim.Proofs.Number.Conversion
import Scim.Validation.Types

/-!
# Every number compares

A number that has the type of its attribute is less than, equal to or greater than every constant of
that type (`Comparison.relates_number`).  It has to be within the range in which numbers are
compared: that of signed integers of 64 bits, or that of decimals.  The types of attributes have no
such bounds, so numbers beyond them are accepted, and are in no relation to a constant.  The number
`10^29` is no decimal (`Comparison.not_relates_beyond_decimals`), and `2^63` is no signed integer
of 64 bits (`Comparison.not_relates_beyond_integers`).
-/

namespace Scim.Comparison

open Scim.Validation (unmet?)

variable {a : Attribute} {v : Json}

/-- A comparable value is in one of three relations to its constant. -/
theorem existsUnique_relates {c : Filter.Constant} (hsingle : a.multiValued = false)
    (h : Comparable a v c) :
    ∃! op, (op = .lt ∨ op = .eq ∨ op = .gt) ∧ relates op (some ⟨v, a⟩) c = true := by
  have hordered : Ordered (relates · (some ⟨v, a⟩) c) :=
    h.ordered.congr fun op _ => relates_comparable hsingle h op
  exact hordered.existsUnique

/-- What a single-valued attribute accepts has its type, or is `null`. -/
theorem hasType_of_unmet? (hsingle : a.multiValued = false) (hfull : v.isNull = false)
    (haccepted : unmet? a v = none) : Validation.hasType a.type v = true := by
  simpa [unmet?, hsingle, hfull] using haccepted

/-- An integer that is accepted, and that fits in 64 bits with a sign, is less than, equal to or
greater than every integer.  A number that is accepted for a decimal attribute, and that is below
`2^96`, is less than, equal to or greater than every decimal. -/
theorem relates_number {a : Attribute} {v : Json} (hsingle : a.multiValued = false)
    (hfull : v.isNull = false) (haccepted : unmet? a v = none) :
    (a.type = .integer → ∃ i : Int, v = .number (.integer i) ∧
      (-2 ^ 63 ≤ i → i < 2 ^ 63 → ∀ j : Int,
        ∃! op, (op = .lt ∨ op = .eq ∨ op = .gt) ∧
          relates op (some ⟨v, a⟩) (.integer j) = true)) ∧
    (a.type = .decimal → ∃ n : Json.Number, v = .number n ∧
      (n.Below (2 ^ 96) → ∀ e : Decimal,
        ∃! op, (op = .lt ∨ op = .eq ∨ op = .gt) ∧
          relates op (some ⟨v, a⟩) (.decimal e) = true)) := by
  have htype := hasType_of_unmet? hsingle hfull haccepted
  constructor
  · intro hinteger
    obtain ⟨i, rfl⟩ : ∃ i : Int, v = .number (.integer i) := by
      rw [hinteger] at htype
      cases v with
      | number n =>
          cases n with
          | integer i => exact ⟨i, rfl⟩
          | float x => cases htype
      | _ => cases htype
    refine ⟨i, rfl, fun hlow hhigh j => existsUnique_relates hsingle ?_⟩
    have hfits : (Json.Number.integer i).int64? = some i := by
      rw [Json.Number.int64?, if_pos]
      omega
    exact .integer hinteger hfits j
  · intro hdecimal
    obtain ⟨n, rfl⟩ : ∃ n : Json.Number, v = .number n := by
      rw [hdecimal] at htype
      cases v with
      | number n => exact ⟨n, rfl⟩
      | _ => cases htype
    refine ⟨n, rfl, fun hbelow e => existsUnique_relates hsingle ?_⟩
    obtain ⟨d, hd⟩ := Option.isSome_iff_exists.mp (isSome_decimal? hbelow)
    exact .decimal hdecimal hd e

/-- A price that is smaller than any decimal place compares with a price of two places. -/
theorem relates_number_price :
    let price : Attribute := { name := "price", type := .decimal }
    let v : Json := .number (.float ⟨false, 4503599627370496, -1074⟩)
    ∃ c, price.multiValued = false ∧ v.isNull = false ∧ unmet? price v = none ∧
      price.type = .decimal ∧ Decimal.ofText? ['1', '.', '5', '0'] = some c ∧
      ∃! op, (op = .lt ∨ op = .eq ∨ op = .gt) ∧
        relates op (some ⟨v, price⟩) (.decimal c) = true := by
  intro price v
  obtain ⟨c, hc⟩ : ∃ c, Decimal.ofText? ['1', '.', '5', '0'] = some c := ⟨⟨false, 150, 2⟩, by
    decide +kernel⟩
  obtain ⟨_, hdecimal⟩ := relates_number (a := price) (v := v) rfl rfl rfl
  obtain ⟨n, hn, htotal⟩ := hdecimal rfl
  have hbelow : n.Below (2 ^ 96) := by
    rw [← Json.number.inj hn, Json.Number.Below, Double.Below]
    decide +kernel
  exact ⟨c, rfl, rfl, rfl, rfl, hc, htotal hbelow c⟩

/-- A price of `10^29` is accepted, and it is neither less than nor equal to nor greater than
five. -/
theorem not_relates_beyond_decimals :
    let price : Attribute := { name := "price", type := .decimal }
    let v : Json := .number (.float ⟨false, 5684341886080801, 44⟩)
    unmet? price v = none ∧ ∀ op, op = .lt ∨ op = .eq ∨ op = .gt →
      relates op (some ⟨v, price⟩) (.decimal ⟨false, 50, 1⟩) = false := by
  intro price v
  refine ⟨rfl, ?_⟩
  rintro op (rfl | rfl | rfl) <;> decide +kernel

/-- A count of `2^63` is accepted, and it is neither less than nor equal to nor greater than
five. -/
theorem not_relates_beyond_integers :
    let count : Attribute := { name := "count", type := .integer }
    let v : Json := .number (.integer 0x8000000000000000)
    unmet? count v = none ∧ ∀ op, op = .lt ∨ op = .eq ∨ op = .gt →
      relates op (some ⟨v, count⟩) (.integer 5) = false := by
  intro count v
  refine ⟨rfl, ?_⟩
  rintro op (rfl | rfl | rfl) <;> decide +kernel

end Scim.Comparison
