/-
  Proofs/Decimal/Value: what the number nearest to a decimal depends on.

  A ratio can be expanded without changing what it is rounded to, so powers of ten can
  move between the coefficient and the exponent of a decimal (`toBinary64_shift`).
  A decimal that reads back as a number other than zero has its point near its first
  digit (`point_bounds`).
-/
import MetricFormula.Decimal.Shortest
import Mathlib.Algebra.Group.Nat.Defs

set_option autoImplicit false

namespace MetricFormula.Binary64

/-! ## Expanded ratios -/

namespace Magnitude

theorem roundHalfEven_mul_right (num den : Nat) {t : Nat} (ht : 0 < t) :
    roundHalfEven (num * t) (den * t) = roundHalfEven num den := by
  have hlt : ∀ r : Nat, den * t < 2 * (r * t) ↔ den < 2 * r := by
    intro r
    rw [← Nat.mul_assoc]
    exact Nat.mul_lt_mul_right ht
  have heq : ∀ r : Nat, 2 * (r * t) = den * t ↔ 2 * r = den := by
    intro r
    rw [← Nat.mul_assoc]
    exact Nat.mul_left_inj (Nat.ne_of_gt ht)
  unfold roundHalfEven
  simp only [Nat.mul_div_mul_right _ _ ht, Nat.mul_mod_mul_right, hlt, heq]

theorem ofRatio?_mul_right (num den : Nat) {t : Nat} (ht : 0 < t) :
    ofRatio? (num * t) (den * t) = ofRatio? num den := by
  unfold ofRatio?
  simp only [Nat.mul_div_mul_right _ _ ht, Nat.mul_right_comm den t,
    roundHalfEven_mul_right _ _ ht]

/-! ## Ratios out of range -/

theorem ofRatio?_eq_none {num den : Nat} (hden : 0 < den) (h : limit * den ≤ num) :
    ofRatio? num den = none := by
  have hq : limit ≤ num / den := (Nat.le_div_iff_mul_le hden).mpr h
  have hlog : 1024 + unitPlaces ≤ (num / den).log2 :=
    (Nat.le_log2 (Nat.ne_of_gt (Nat.lt_of_lt_of_le limit_pos hq))).mpr hq
  have hpos : 0 < 2 ^ scale (num / den) := Nat.two_pow_pos _
  -- The significand keeps the leading digit, which alone reaches the limit.
  have hlead : 2 ^ 52 * 2 ^ scale (num / den) ≤ num / den := by
    rw [← Nat.pow_add, show 52 + scale (num / den) = (num / den).log2 by unfold scale; omega]
    exact Nat.log2_self_le (Nat.ne_of_gt (Nat.lt_of_lt_of_le limit_pos hq))
  have hround : 2 ^ 52 ≤ roundHalfEven num (den * 2 ^ scale (num / den)) := by
    have hfloor : 2 ^ 52 ≤ num / (den * 2 ^ scale (num / den)) := by
      rw [← Nat.div_div_eq_div_mul]
      exact (Nat.le_div_iff_mul_le hpos).mpr hlead
    unfold roundHalfEven
    dsimp only
    split <;> omega
  have hlimit : limit ≤ 2 ^ 52 * 2 ^ scale (num / den) := by
    rw [← Nat.pow_add]
    exact Nat.pow_le_pow_right (by omega) (by unfold scale; omega)
  unfold ofRatio? ofSignificand?
  rw [dif_neg]
  exact Nat.not_lt.mpr (Nat.le_trans hlimit (Nat.mul_le_mul_right _ hround))

theorem ofRatio?_eq_zero {num den : Nat} (h : 2 * num < den) : ofRatio? num den = some zero := by
  have hq : num / den = 0 := Nat.div_eq_of_lt (by omega)
  have hscale : scale 0 = 0 := by decide
  have hround : roundHalfEven num den = 0 := by
    unfold roundHalfEven
    simp only [hq, Nat.mod_eq_of_lt (show num < den by omega)]
    rw [if_neg (by omega)]
  unfold ofRatio? ofSignificand?
  simp only [hq, hscale, Nat.pow_eq, Nat.pow_zero, Nat.mul_one, hround]
  rw [dif_pos limit_pos]
  rfl

end Magnitude

theorem ofRatio_mul_right (negative : Bool) (num den : Nat) {t : Nat} (ht : 0 < t) :
    ofRatio negative (num * t) (den * t) = ofRatio negative num den := by
  unfold ofRatio
  rw [Magnitude.ofRatio?_mul_right _ _ ht]

theorem ofRatio_eq_infinity (negative : Bool) {num den : Nat} (hden : 0 < den)
    (h : limit * den ≤ num) : ofRatio negative num den = .infinity negative := by
  unfold ofRatio
  rw [Magnitude.ofRatio?_eq_none hden h]

theorem ofRatio_eq_zero (negative : Bool) {num den : Nat} (h : 2 * num < den) :
    ofRatio negative num den = .finite negative .zero := by
  unfold ofRatio
  rw [Magnitude.ofRatio?_eq_zero h]

/-! ## Powers of ten and the units -/

/-- A number with this many digits before the point is too large to be held, and one
with this many zeros after it is too small. -/
def reach : Nat := 1024 + unitPlaces

theorem two_pow_le_ten_pow (n : Nat) : 2 ^ n ≤ 10 ^ n := Nat.pow_le_pow_left (by omega) n

theorem limit_le_ten_pow : limit ≤ 10 ^ reach * unitsPerOne :=
  Nat.le_trans (two_pow_le_ten_pow _) (Nat.le_mul_of_pos_right _ unitsPerOne_pos)

theorem two_units_le_ten_pow : 2 * unitsPerOne ≤ 10 ^ reach := by
  refine Nat.le_trans ?_ (two_pow_le_ten_pow _)
  unfold unitsPerOne reach
  rw [Nat.pow_eq, ← Nat.pow_succ']
  exact Nat.pow_le_pow_right (by omega) (by omega)

end MetricFormula.Binary64

namespace MetricFormula.Decimal

open MetricFormula.Binary64

/-! ## Moving the point -/

/-- Zeros at the end of a coefficient can as well be counted by the exponent. -/
theorem toBinary64_shift (negative : Bool) (c : Nat) (e : Int) (k : Nat) :
    toBinary64 negative ⟨c * 10 ^ k, e⟩ = toBinary64 negative ⟨c, e + k⟩ := by
  have hten : ∀ n : Nat, 0 < 10 ^ n := fun n => Nat.pow_pos (by omega)
  unfold toBinary64
  dsimp only [Nat.pow_eq]
  by_cases he : 0 ≤ e
  · rw [if_pos he, if_pos (by omega), show (e + k).toNat = k + e.toNat by omega, Nat.pow_add,
      Nat.mul_assoc c]
  · rw [if_neg he]
    by_cases hek : 0 ≤ e + k
    · -- Expand the ratio over one by what the coefficient has too much.
      have hk : 10 ^ k = 10 ^ (e + k).toNat * 10 ^ (-e).toNat := by
        rw [← Nat.pow_add, show (e + k).toNat + (-e).toNat = k by omega]
      rw [if_pos hek, ← ofRatio_mul_right negative _ 1 (hten (-e).toNat), Nat.one_mul, hk,
        ← Nat.mul_assoc, Nat.mul_right_comm]
    · have hk : 10 ^ (-e).toNat = 10 ^ (-(e + k)).toNat * 10 ^ k := by
        rw [← Nat.pow_add, show (-(e + k)).toNat + k = (-e).toNat by omega]
      rw [if_neg hek, hk, Nat.mul_right_comm, ofRatio_mul_right negative _ _ (hten k)]

/-! ## The place of the point -/

/-- How many digits a decimal has before its point; for one below 1/10, minus the
number of zeros after the point. -/
def point (d : Decimal) : Int := (Nat.toDigits 10 d.coefficient).length + d.exponent

theorem lt_ten_pow_length (n : Nat) : n < 10 ^ (Nat.toDigits 10 n).length :=
  (Nat.length_toDigits_le_iff (by omega) Nat.length_toDigits_pos).mp (Nat.le_refl _)

theorem ten_pow_le_of_lt_length {n k : Nat} (hn : n ≠ 0) (hk : k < (Nat.toDigits 10 n).length) :
    10 ^ k ≤ n := by
  cases k with
  | zero => exact Nat.pos_of_ne_zero hn
  | succ k =>
      apply Nat.le_of_not_lt
      intro hlt
      have := (Nat.length_toDigits_le_iff (by omega) (Nat.succ_pos k)).mpr hlt
      omega

/-- Zero is zero at any scale. -/
theorem toBinary64_of_coefficient {d : Decimal} (h : d.coefficient = 0) :
    toBinary64 false d = .finite false .zero := by
  unfold toBinary64
  rw [h]
  split
  · rw [Nat.zero_mul, Nat.zero_mul, ofRatio_eq_zero false (by omega)]
  · rw [Nat.zero_mul, ofRatio_eq_zero false (Nat.pow_pos (by omega))]

/-- A decimal with its point far behind its first digit is too large. -/
theorem toBinary64_of_point_gt {d : Decimal} (hd : d.coefficient ≠ 0)
    (h : (reach : Int) < d.point) : toBinary64 false d = .infinity false := by
  have hnone : ∀ {num den : Nat}, 0 < den → 10 ^ reach * den * unitsPerOne ≤ num →
      ofRatio false num den = .infinity false := by
    intro num den hden hnum
    apply ofRatio_eq_infinity false hden
    calc limit * den ≤ 10 ^ reach * unitsPerOne * den := Nat.mul_le_mul_right _ limit_le_ten_pow
      _ = 10 ^ reach * den * unitsPerOne := Nat.mul_right_comm ..
      _ ≤ num := hnum
  unfold point at h
  unfold toBinary64
  dsimp only [Nat.pow_eq]
  by_cases he : 0 ≤ d.exponent
  · rw [if_pos he]
    apply hnone (by omega)
    apply Nat.mul_le_mul_right
    rw [Nat.mul_one]
    obtain ⟨k, hk⟩ : ∃ k, (Nat.toDigits 10 d.coefficient).length = k + 1 :=
      Nat.exists_eq_add_one.mpr Nat.length_toDigits_pos
    calc 10 ^ reach ≤ 10 ^ (k + d.exponent.toNat) := Nat.pow_le_pow_right (by omega) (by omega)
      _ = 10 ^ k * 10 ^ d.exponent.toNat := Nat.pow_add ..
      _ ≤ d.coefficient * 10 ^ d.exponent.toNat :=
        Nat.mul_le_mul_right _ (ten_pow_le_of_lt_length hd (by omega))
  · rw [if_neg he]
    apply hnone (Nat.pow_pos (by omega))
    apply Nat.mul_le_mul_right
    rw [← Nat.pow_add]
    exact ten_pow_le_of_lt_length hd (by omega)

/-- A decimal with its point far before its first digit is too small. -/
theorem toBinary64_of_point_lt {d : Decimal} (h : d.point < -(reach : Int)) :
    toBinary64 false d = .finite false .zero := by
  unfold point at h
  have hlt := lt_ten_pow_length d.coefficient
  have hsmall : 2 * (d.coefficient * unitsPerOne) < 10 ^ (-d.exponent).toNat :=
    calc 2 * (d.coefficient * unitsPerOne) = d.coefficient * (2 * unitsPerOne) :=
          Nat.mul_left_comm ..
      _ ≤ d.coefficient * 10 ^ reach := Nat.mul_le_mul_left _ two_units_le_ten_pow
      _ < 10 ^ (Nat.toDigits 10 d.coefficient).length * 10 ^ reach :=
          Nat.mul_lt_mul_of_pos_right hlt (Nat.pow_pos (by omega))
      _ = 10 ^ ((Nat.toDigits 10 d.coefficient).length + reach) := (Nat.pow_add ..).symm
      _ ≤ 10 ^ (-d.exponent).toNat := Nat.pow_le_pow_right (by omega) (by omega)
  unfold toBinary64
  rw [if_neg (by omega)]
  exact ofRatio_eq_zero false hsmall

/-- A decimal that reads back as a number other than zero has its point near its first
digit. -/
theorem point_bounds {m : Magnitude} {d : Decimal} (h : ReadsBack m d) (hm : m.units ≠ 0) :
    -(reach : Int) ≤ d.point ∧ d.point ≤ reach := by
  unfold ReadsBack at h
  constructor
  · apply Int.not_lt.mp
    intro hlt
    rw [toBinary64_of_point_lt hlt] at h
    injection h with _ hzero
    exact hm (by rw [← hzero]; rfl)
  · apply Int.not_lt.mp
    intro hgt
    have hd : d.coefficient ≠ 0 := by
      intro h0
      rw [toBinary64_of_coefficient h0] at h
      injection h with _ hzero
      exact hm (by rw [← hzero]; rfl)
    rw [toBinary64_of_point_gt hd hgt] at h
    simp at h

end MetricFormula.Decimal
