/-
  Proofs/Binary64/Bits: the encoding of a binary64 number is decoded to it.

  A word is cut into its three fields again by division, because every field stays below the
  weight of the next one (`fields`).  The fields of a magnitude give the magnitude back: its
  units if they are below the least significand that is not subnormal, and otherwise the 53
  digits that `IsRepresentable` leaves it, at their scale (`magnitudeOfFields_fields`).
-/
import MetricFormula.Binary64.Bits
import Mathlib.Algebra.Group.Nat.Defs

set_option autoImplicit false

namespace MetricFormula.Binary64

/-! ## Fields -/

/-- Sign, exponent and fraction can be read off the word that they make up. -/
theorem fields {exponent fraction : Nat} (negative : Bool) (he : exponent < 2048)
    (hf : fraction < fractions) :
    let n := (UInt64.ofNat (signBit negative + (exponent * fractions + fraction))).toNat
    (n / signWeight == 1) = negative ∧ n / fractions % 2048 = exponent ∧
      n % fractions = fraction := by
  have hn : (UInt64.ofNat (signBit negative + (exponent * fractions + fraction))).toNat =
      signBit negative + (exponent * fractions + fraction) := by
    rw [UInt64.toNat_ofNat']
    refine Nat.mod_eq_of_lt ?_
    unfold signBit signWeight fractions at *
    split <;> omega
  dsimp only
  rw [hn]
  unfold signBit signWeight fractions at *
  cases negative with
  | true =>
      simp only [if_true, beq_iff_eq]
      omega
  | false =>
      simp only [Bool.false_eq_true, if_false, beq_eq_false_iff_ne]
      omega

/-- The exponent field of a magnitude. -/
def exponentField (m : Magnitude) : Nat :=
  if m.units < fractions then 0 else m.units.log2 - 51

/-- The fraction field of a magnitude. -/
def fractionField (m : Magnitude) : Nat :=
  if m.units < fractions then m.units else m.units / Nat.pow 2 (m.units.log2 - 52) - fractions

theorem magnitudeBits_eq (m : Magnitude) :
    magnitudeBits m = exponentField m * fractions + fractionField m := by
  unfold magnitudeBits exponentField fractionField
  split
  · rw [Nat.zero_mul, Nat.zero_add]
  · rfl

/-- A magnitude that is not subnormal has 53 digits at its scale. -/
theorem significand_bounds {m : Magnitude} (h : ¬m.units < fractions) :
    fractions ≤ m.units / 2 ^ (m.units.log2 - 52) ∧
      m.units / 2 ^ (m.units.log2 - 52) < 2 * fractions ∧ 52 ≤ m.units.log2 := by
  have h52 : 2 ^ 52 ≤ m.units := Nat.not_lt.mp h
  have hne : m.units ≠ 0 := by
    rintro h0
    rw [h0] at h52
    simp at h52
  have hlog : 52 ≤ m.units.log2 := (Nat.le_log2 hne).mpr h52
  have hsplit : m.units.log2 = 52 + (m.units.log2 - 52) := by omega
  have hlow : 2 ^ 52 * 2 ^ (m.units.log2 - 52) ≤ m.units := by
    rw [← Nat.pow_add, ← hsplit]
    exact Nat.log2_self_le hne
  have hhigh : m.units < 2 ^ 53 * 2 ^ (m.units.log2 - 52) := by
    rw [← Nat.pow_add, show 53 + (m.units.log2 - 52) = m.units.log2 + 1 by omega]
    exact Nat.lt_log2_self
  refine ⟨(Nat.le_div_iff_mul_le (Nat.two_pow_pos _)).mpr hlow, ?_, hlog⟩
  exact (Nat.div_lt_iff_lt_mul (Nat.two_pow_pos _)).mpr hhigh

theorem exponentField_lt (m : Magnitude) : exponentField m < 2047 := by
  unfold exponentField
  split
  · decide
  · rename_i h
    have hlt : m.units.log2 < 1024 + unitPlaces := by
      have hne : m.units ≠ 0 := by
        rintro h0
        rw [h0] at h
        exact h (by decide)
      exact (Nat.log2_lt hne).mpr m.representable.2
    unfold unitPlaces at hlt
    omega

theorem fractionField_lt (m : Magnitude) : fractionField m < fractions := by
  unfold fractionField
  split
  · assumption
  · have hbounds := significand_bounds ‹_›
    change m.units / 2 ^ (m.units.log2 - 52) - fractions < fractions
    omega

theorem units_magnitudeOfFields {exponent fraction : Nat} (he : exponent < 2047)
    (hf : fraction < fractions) :
    (magnitudeOfFields exponent fraction he hf).units =
      if exponent = 0 then fraction else (fractions + fraction) * 2 ^ (exponent - 1) := by
  unfold magnitudeOfFields
  split
  · exact Nat.mul_one fraction
  · rfl

/-- A magnitude is made up of its fields. -/
theorem magnitudeOfFields_fields (m : Magnitude) :
    magnitudeOfFields (exponentField m) (fractionField m) (exponentField_lt m)
      (fractionField_lt m) = m := by
  have hunits : (magnitudeOfFields (exponentField m) (fractionField m) (exponentField_lt m)
      (fractionField_lt m)).units = m.units := by
    rw [units_magnitudeOfFields, exponentField, fractionField]
    by_cases h : m.units < fractions
    · rw [if_pos h, if_pos h, if_pos rfl]
    · obtain ⟨hlow, -, hlog⟩ := significand_bounds h
      have hexact : m.units / 2 ^ (m.units.log2 - 52) * 2 ^ (m.units.log2 - 52) = m.units :=
        Nat.div_mul_cancel m.representable.1
      rw [if_neg h, if_neg h, if_neg (by omega)]
      change (fractions + (m.units / 2 ^ (m.units.log2 - 52) - fractions)) *
        2 ^ (m.units.log2 - 51 - 1) = m.units
      rw [Nat.add_sub_cancel' hlow, show m.units.log2 - 51 - 1 = m.units.log2 - 52 by omega, hexact]
  generalize magnitudeOfFields _ _ _ _ = m' at hunits
  cases m
  cases m'
  simpa using hunits

/-! ## Words -/

/-- A number can be read off the word that encodes it. -/
theorem ofBits_toBits (x : Binary64) : ofBits x.toBits = x := by
  cases x with
  | nan => decide +kernel
  | infinity s => cases s <;> decide +kernel
  | finite s m =>
      have hexponent := exponentField_lt m
      obtain ⟨hsign, he, hf⟩ := fields s (Nat.lt_succ_of_lt hexponent) (fractionField_lt m)
      rw [← magnitudeBits_eq] at hsign he hf
      unfold ofBits toBits
      simp only [hsign, he, hf, dif_pos hexponent, magnitudeOfFields_fields]

end MetricFormula.Binary64
