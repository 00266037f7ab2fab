/-
  Proofs/ExactSum/TwoSum: the rounded sum of two numbers and what it lost.

  With the greater magnitude first, what the rounding of a sum loses is a binary64
  number, and so is every step that computes it: unless the sum overflows, the two
  parts add up to the exact sum (`twoSum_cases`).  The part that was lost lies below
  the last place of the rounded sum and is no greater than either summand
  (`error_lt_of_roundUnits`, `error_le_left`, `error_le_right`).
-/
import MetricFormula.Proofs.Binary64.Arithmetic
import MetricFormula.Series.ExactSum

set_option autoImplicit false

namespace MetricFormula.Binary64

open Magnitude (scale)

/-! ## The error of a rounded sum -/

/-- Two numbers on the grid have a common scale at which the lesser has 53 digits. -/
theorem OnGrid.common_scale {a b : Int} (ha : OnGrid a) (hb : OnGrid b)
    (hle : b.natAbs ≤ a.natAbs) :
    ∃ m : Nat, (2 : Int) ^ m ∣ a ∧ (2 : Int) ^ m ∣ b ∧ b.natAbs ≤ 2 ^ (53 + m) := by
  have hbound : ∀ (n : Int) (k : Nat), n.natAbs ≤ 2 ^ 53 →
      (n * 2 ^ k).natAbs ≤ 2 ^ (53 + k) := by
    intro n k hn
    rw [Int.natAbs_mul, Int.natAbs_pow, Nat.pow_add]
    exact Nat.mul_le_mul_right _ hn
  obtain ⟨n, i, hn, rfl⟩ := ha
  obtain ⟨n', j, hn', rfl⟩ := hb
  rcases le_total i j with hij | hji
  · exact ⟨i, dvd_mul_left _ _, Dvd.dvd.mul_left (pow_dvd_pow 2 hij) _,
      le_trans hle (hbound n i hn)⟩
  · exact ⟨j, Dvd.dvd.mul_left (pow_dvd_pow 2 hji) _, dvd_mul_left _ _, hbound n' j hn'⟩

theorem error_le_right {a b : Int} (ha : OnGrid a) :
    (a + b - roundUnits (a + b)).natAbs ≤ b.natAbs := by
  have h := nearest (z := a + b) ha
  rwa [show a + b - a = b by ring] at h

/-- What the rounding of a sum loses is on the grid. -/
theorem onGrid_error {a b : Int} (ha : OnGrid a) (hb : OnGrid b) (hle : b.natAbs ≤ a.natAbs) :
    OnGrid (a + b - roundUnits (a + b)) := by
  obtain ⟨m, hma, hmb, hm⟩ := ha.common_scale hb hle
  have hsum : (2 : Int) ^ m ∣ a + b := Int.dvd_add hma hmb
  exact onGrid_of_dvd (Int.dvd_sub hsum (dvd_roundUnits hsum)) (le_trans (error_le_right ha) hm)

/-- What the rounded sum is more than the greater summand is on the grid. -/
theorem onGrid_roundUnits_sub {a b : Int} (ha : OnGrid a) (hb : OnGrid b)
    (hle : b.natAbs ≤ a.natAbs) : OnGrid (roundUnits (a + b) - a) := by
  have herr := error_le (a + b)
  have hdvd := two_pow_scale_dvd_roundUnits (a + b)
  have hlt := lt_two_pow_scale (a + b).natAbs
  have hmin := two_pow_scale_le (n := (a + b).natAbs)
  -- An exact sum leaves the lesser summand.
  have hexact : OnGrid (a + b) → OnGrid (roundUnits (a + b) - a) := by
    intro hgrid
    rw [roundUnits_eq hgrid]
    rwa [show a + b - a = b by ring]
  generalize scale (a + b).natAbs = k at *
  have hpos : 0 < 2 ^ k := Nat.two_pow_pos k
  rcases Nat.eq_zero_or_pos k with rfl | hk
  · exact hexact (onGrid_of_dvd (one_dvd _) hlt.le)
  · specialize hmin hk
    by_cases hka : (2 : Int) ^ k ∣ a
    · by_cases hbk : b.natAbs ≤ 2 ^ (53 + k)
      · have hd : (2 : Int) ^ k ∣ roundUnits (a + b) - a := Int.dvd_sub hdvd hka
        exact onGrid_of_dvd hd (natAbs_le_of_dvd hd (by omega))
      · -- Both summands are so great that the sum ends above the last place.
        have hpow : 2 ^ (53 + k) = 2 ^ (52 + (k + 1)) := by
          congr 1
          omega
        have hb' := hb.dvd_of_le (k := k + 1) (by omega)
        have ha' := ha.dvd_of_le (k := k + 1) (by omega)
        refine hexact (onGrid_of_dvd (Int.dvd_add ha' hb') (le_trans hlt.le ?_))
        exact Nat.pow_le_pow_right (by omega) (by omega)
    · -- The greater summand ends one place below the last place of the sum.
      obtain ⟨j, rfl⟩ : ∃ j, k = j + 1 := ⟨k - 1, by omega⟩
      have halt : a.natAbs < 2 ^ (52 + (j + 1)) := by
        by_contra hge
        exact hka (ha.dvd_of_le (by omega))
      have hpow₁ : 2 ^ (52 + (j + 1)) = 2 * 2 ^ (52 + j) := by
        rw [← Nat.add_assoc, Nat.pow_succ, Nat.mul_comm]
      have hpow₂ : 2 ^ (52 + (j + 1)) = 2 ^ (53 + j) := by
        congr 1
        omega
      have hpow₃ : 2 ^ (j + 1) = 2 * 2 ^ j := by rw [Nat.pow_succ, Nat.mul_comm]
      have hja := ha.dvd_of_le (k := j) (by omega)
      have hd : (2 : Int) ^ j ∣ roundUnits (a + b) - a :=
        Int.dvd_sub (dvd_trans (pow_dvd_pow 2 (by omega)) hdvd) hja
      exact onGrid_of_dvd hd (natAbs_le_of_dvd hd (by omega))

/-- A rounded sum and the greater summand lie on the same side of zero. -/
theorem natAbs_roundUnits_sub_lt {a b : Int} {bound : Nat} (hle : b.natAbs ≤ a.natAbs)
    (ha : a.natAbs < bound) (hs : (roundUnits (a + b)).natAbs < bound) :
    (roundUnits (a + b) - a).natAbs < bound := by
  rcases le_total 0 a with h | h
  · have := roundUnits_nonneg (z := a + b) (by omega)
    omega
  · have := roundUnits_nonpos (z := a + b) (by omega)
    omega

/-- What a rounding loses lies below a power of two that divides the rounded
number. -/
theorem error_lt_of_roundUnits (z : Int) :
    ∃ k : Nat, (z - roundUnits z).natAbs < 2 ^ k ∧ (2 : Int) ^ k ∣ roundUnits z := by
  have herr := error_le z
  have hpos : 0 < 2 ^ scale z.natAbs := Nat.two_pow_pos _
  exact ⟨scale z.natAbs, by omega, two_pow_scale_dvd_roundUnits z⟩

end MetricFormula.Binary64

namespace MetricFormula.ExactSum

open Binary64

/-! ## The two parts of a sum -/

theorem abs_numericLt_abs {x y : Binary64} (hx : x.isFinite = true) (hy : y.isFinite = true) :
    x.abs.numericLt y.abs = decide (x.units.natAbs < y.units.natAbs) := by
  cases x with
  | nan => simp [isFinite] at hx
  | infinity s => simp [isFinite] at hx
  | finite s m =>
      cases y with
      | nan => simp [isFinite] at hy
      | infinity t => simp [isFinite] at hy
      | finite t n =>
          rw [units_finite, units_finite, natAbs_signedUnits, natAbs_signedUnits]
          simp [Binary64.abs, numericLt, signedUnits]

/-- The sum of two numbers with the greater magnitude first, in the two cases of
`twoSum_cases`. -/
theorem highLow_cases {large small : Binary64} (hl : large.isFinite = true)
    (hs : small.isFinite = true) (hle : small.units.natAbs ≤ large.units.natAbs) :
    ((large + small).isFinite = true ∧
        (large + small).units = roundUnits (large.units + small.units) ∧
        (small - (large + small - large)).isFinite = true ∧
        (large + small).units + (small - (large + small - large)).units =
          large.units + small.units) ∨
      ∃ t : Bool, large + small = .infinity t ∧
        small - (large + small - large) = .infinity (!t) := by
  rcases add_cases hl hs with ⟨hfin, hunits⟩ | ⟨hinf, _⟩
  · left
    have hlt : (roundUnits (large.units + small.units)).natAbs < limit := by
      rw [← hunits]
      exact natAbs_units_lt _
    have hgrid := onGrid_roundUnits_sub (onGrid_units large) (onGrid_units small) hle
    have hbound := natAbs_roundUnits_sub_lt hle (natAbs_units_lt large) hlt
    obtain ⟨hmid, hmidUnits⟩ :=
      sub_exact (x := large + small) hfin hl (by rwa [hunits]) (by rwa [hunits])
    rw [hunits] at hmidUnits
    have hlow : small.units - (large + small - large).units =
        large.units + small.units - roundUnits (large.units + small.units) := by
      rw [hmidUnits]
      ring
    have herr := error_le_right (a := large.units) (b := small.units) (onGrid_units large)
    have hsmall := natAbs_units_lt small
    obtain ⟨hfinLow, hunitsLow⟩ := sub_exact (x := small) (y := large + small - large) hs hmid
      (by
        rw [hlow]
        exact onGrid_error (onGrid_units large) (onGrid_units small) hle)
      (by
        rw [hlow]
        omega)
    refine ⟨hfin, hunits, hfinLow, ?_⟩
    rw [hunitsLow, hlow, hunits]
    ring
  · right
    refine ⟨_, hinf, ?_⟩
    rw [hinf, sub_eq_add_neg (.infinity _) large, infinity_add (by rw [isFinite_neg, hl])]
    exact add_infinity hs

/-- Two finite numbers either have a finite rounded sum, and then the two parts add
up to the exact sum, or the sum overflows, and then the parts are opposite
infinities. -/
theorem twoSum_cases {x y : Binary64} (hx : x.isFinite = true) (hy : y.isFinite = true) :
    ((twoSum x y).1.isFinite = true ∧ (twoSum x y).1.units = roundUnits (x.units + y.units) ∧
        (twoSum x y).2.isFinite = true ∧
        (twoSum x y).1.units + (twoSum x y).2.units = x.units + y.units) ∨
      ∃ t : Bool, twoSum x y = (.infinity t, .infinity (!t)) := by
  unfold twoSum
  rw [abs_numericLt_abs hx hy]
  by_cases hlt : x.units.natAbs < y.units.natAbs
  · simp only [hlt, decide_true, if_true]
    rcases highLow_cases hy hx (by omega) with ⟨h₁, h₂, h₃, h₄⟩ | ⟨t, ht₁, ht₂⟩
    · left
      rw [add_comm x.units]
      exact ⟨h₁, h₂, h₃, h₄⟩
    · exact Or.inr ⟨t, Prod.ext ht₁ ht₂⟩
  · simp only [hlt, decide_false, Bool.false_eq_true, if_false]
    rcases highLow_cases hx hy (by omega) with ⟨h₁, h₂, h₃, h₄⟩ | ⟨t, ht₁, ht₂⟩
    · exact Or.inl ⟨h₁, h₂, h₃, h₄⟩
    · exact Or.inr ⟨t, Prod.ext ht₁ ht₂⟩

end MetricFormula.ExactSum
