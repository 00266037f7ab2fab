/-
  Proofs/Binary64/Arithmetic: sums and doubles of finite numbers as rounded integers.

  `units` reads a finite number as a whole number of units.  A sum of finite numbers
  is then either finite with the rounded sum of the units, or an infinity with the
  sign of the exact sum (`add_cases`), and a sum that is on the grid and below the
  limit is exact (`add_exact`).  `value` is the rational number behind the units.
-/
import MetricFormula.Proofs.Binary64.Rounding
import Mathlib.Algebra.Order.Field.Rat
import Mathlib.Algebra.BigOperators.Group.List.Lemmas

set_option autoImplicit false

namespace MetricFormula.Binary64

open Magnitude (roundHalfEven scale ofRatio? ofSignificand?)

/-! ## Units -/

/-- A finite number in units of the least positive one; 0 for any other number. -/
def units : Binary64 → Int
  | .finite s m => signedUnits s m
  | _ => 0

@[simp] theorem units_finite (s : Bool) (m : Magnitude) :
    units (.finite s m) = signedUnits s m := rfl

@[simp] theorem units_zero : units zero = 0 := rfl

/-- The exact value of a finite number; 0 for any other number. -/
def value (x : Binary64) : ℚ := (x.units : ℚ) / (unitsPerOne : ℚ)

theorem natAbs_signedUnits (s : Bool) (m : Magnitude) : (signedUnits s m).natAbs = m.units := by
  cases s <;> simp [signedUnits]

theorem isZero_iff {x : Binary64} (h : x.isFinite = true) : x.isZero = true ↔ x.units = 0 := by
  cases x with
  | nan => simp [isFinite] at h
  | infinity s => simp [isFinite] at h
  | finite s m =>
      have := natAbs_signedUnits s m
      simp only [isZero, beq_iff_eq, units_finite]
      omega

/-- A finite number other than zero is determined by its units. -/
theorem eq_of_units_eq {x y : Binary64} (hx : x.isFinite = true) (hy : y.isFinite = true)
    (h : x.units = y.units) (h0 : x.units ≠ 0) : x = y := by
  cases x with
  | nan => simp [isFinite] at hx
  | infinity s => simp [isFinite] at hx
  | finite s m =>
      cases y with
      | nan => simp [isFinite] at hy
      | infinity t => simp [isFinite] at hy
      | finite t n =>
          have hm := natAbs_signedUnits s m
          have hn := natAbs_signedUnits t n
          simp only [units_finite] at h h0
          have hunits : m.units = n.units := by omega
          have hmn : m = n := by
            cases m
            cases n
            simpa using hunits
          subst hmn
          have hst : s = t := by
            cases s <;> cases t <;> simp [signedUnits] at h h0 ⊢ <;> omega
          rw [hst]

theorem onGrid_of_isRepresentable {n : Nat} (h : IsRepresentable n) : OnGrid (n : Int) := by
  have hdvd : (2 : Int) ^ scale n ∣ (n : Int) := by
    have h₁ : 2 ^ scale n ∣ n := h.1
    exact_mod_cast h₁
  refine onGrid_of_dvd hdvd ?_
  rw [Int.natAbs_natCast]
  exact (lt_two_pow_scale n).le

theorem isRepresentable_of_onGrid {n : Nat} (h : OnGrid (n : Int)) (hlt : n < limit) :
    IsRepresentable n := by
  refine ⟨?_, hlt⟩
  change 2 ^ scale n ∣ n
  rcases Nat.eq_zero_or_pos (scale n) with h0 | hpos
  · rw [h0]
    exact one_dvd n
  · have hdvd := h.dvd_of_le (k := scale n) (two_pow_scale_le hpos)
    exact_mod_cast hdvd

theorem onGrid_units (x : Binary64) : OnGrid x.units := by
  cases x with
  | nan => exact ⟨0, 0, by simp, rfl⟩
  | infinity s => exact ⟨0, 0, by simp, rfl⟩
  | finite s m =>
      have h := onGrid_of_isRepresentable m.representable
      cases s with
      | false => simpa [signedUnits] using h
      | true => simpa [signedUnits] using h.neg

theorem natAbs_units_lt (x : Binary64) : x.units.natAbs < limit := by
  cases x with
  | nan => exact limit_pos
  | infinity s => exact limit_pos
  | finite s m =>
      rw [units_finite, natAbs_signedUnits]
      exact m.representable.2

@[simp] theorem isFinite_neg (x : Binary64) : x.neg.isFinite = x.isFinite := by
  cases x <;> rfl

@[simp] theorem units_neg (x : Binary64) : x.neg.units = -x.units := by
  cases x with
  | nan => rfl
  | infinity s => rfl
  | finite s m => cases s <;> simp [neg, signedUnits]

/-! ## Rounding to a number -/

theorem ofRatio?_one_eq_some {n : Nat} {m : Magnitude} (h : ofRatio? n 1 = some m) :
    m.units = roundMagnitude n := by
  unfold ofRatio? ofSignificand? at h
  simp only [Nat.div_one, Nat.one_mul] at h
  split at h
  · rw [← Option.some.inj h]
    rfl
  · simp at h

theorem ofRatio?_one_eq_none {n : Nat} (h : ofRatio? n 1 = none) : limit ≤ roundMagnitude n := by
  unfold ofRatio? ofSignificand? at h
  simp only [Nat.div_one, Nat.one_mul] at h
  split at h
  · simp at h
  · rename_i hlt
    exact Nat.le_of_not_lt hlt

theorem natAbs_roundUnits (z : Int) : (roundUnits z).natAbs = roundMagnitude z.natAbs := by
  unfold roundUnits
  split <;> simp

/-- A whole number of units becomes a finite number with the rounded units or, if
these are too large, an infinity with the sign of the number. -/
theorem ofUnits_cases (zeroSign : Bool) (z : Int) :
    ((ofUnits zeroSign z).isFinite = true ∧ (ofUnits zeroSign z).units = roundUnits z) ∨
      (ofUnits zeroSign z = .infinity (decide (z < 0)) ∧ limit ≤ (roundUnits z).natAbs) := by
  unfold ofUnits
  by_cases hz : z = 0
  · subst hz
    rw [if_pos rfl]
    refine Or.inl ⟨rfl, ?_⟩
    cases zeroSign <;> decide
  · rw [if_neg hz]
    unfold ofRatio
    split
    · rename_i m hm
      refine Or.inl ⟨rfl, ?_⟩
      rw [units_finite, signedUnits, ofRatio?_one_eq_some hm, roundUnits]
      simp only [decide_eq_true_eq]
    · rename_i hm
      refine Or.inr ⟨rfl, ?_⟩
      rw [natAbs_roundUnits]
      exact ofRatio?_one_eq_none hm

/-! ## Sums -/

theorem add_eq_ofUnits {x y : Binary64} (hx : x.isFinite = true) (hy : y.isFinite = true) :
    ∃ zeroSign : Bool, x + y = ofUnits zeroSign (x.units + y.units) := by
  cases x with
  | nan => simp [isFinite] at hx
  | infinity s => simp [isFinite] at hx
  | finite s m =>
      cases y with
      | nan => simp [isFinite] at hy
      | infinity t => simp [isFinite] at hy
      | finite t n => exact ⟨s && t, rfl⟩

/-- A sum of finite numbers is the rounded sum, or an infinity with the sign of the
exact sum. -/
theorem add_cases {x y : Binary64} (hx : x.isFinite = true) (hy : y.isFinite = true) :
    ((x + y).isFinite = true ∧ (x + y).units = roundUnits (x.units + y.units)) ∨
      (x + y = .infinity (decide (x.units + y.units < 0)) ∧
        limit ≤ (roundUnits (x.units + y.units)).natAbs) := by
  obtain ⟨zeroSign, h⟩ := add_eq_ofUnits hx hy
  rw [h]
  exact ofUnits_cases zeroSign _

/-- A sum that is on the grid and below the limit is exact. -/
theorem add_exact {x y : Binary64} (hx : x.isFinite = true) (hy : y.isFinite = true)
    (hgrid : OnGrid (x.units + y.units)) (hlt : (x.units + y.units).natAbs < limit) :
    (x + y).isFinite = true ∧ (x + y).units = x.units + y.units := by
  rcases add_cases hx hy with h | ⟨_, hle⟩
  · rwa [roundUnits_eq hgrid] at h
  · rw [roundUnits_eq hgrid] at hle
    omega

theorem sub_eq_add_neg (x y : Binary64) : x - y = x + y.neg := rfl

/-- A difference that is on the grid and below the limit is exact. -/
theorem sub_exact {x y : Binary64} (hx : x.isFinite = true) (hy : y.isFinite = true)
    (hgrid : OnGrid (x.units - y.units)) (hlt : (x.units - y.units).natAbs < limit) :
    (x - y).isFinite = true ∧ (x - y).units = x.units - y.units := by
  have hneg : x.units + y.neg.units = x.units - y.units := by
    rw [units_neg]
    ring
  rw [sub_eq_add_neg, ← hneg]
  refine add_exact hx (by rw [isFinite_neg, hy]) ?_ ?_
  · rwa [hneg]
  · rwa [hneg]

/-! ## Doubling -/

theorem OnGrid.two_mul {z : Int} (h : OnGrid z) : OnGrid (2 * z) := by
  obtain ⟨n, k, hn, rfl⟩ := h
  exact ⟨n, k + 1, hn, by ring⟩

/-- Twice a number below half of the limit is exact. -/
theorem mul_two_exact {x : Binary64} (hx : x.isFinite = true)
    (hlt : (2 * x.units).natAbs < limit) :
    (x * two).isFinite = true ∧ (x * two).units = 2 * x.units := by
  have hgrid := (onGrid_units x).two_mul
  cases x with
  | nan => simp [isFinite] at hx
  | infinity s => simp [isFinite] at hx
  | finite s m =>
      have habs : (2 * signedUnits s m).natAbs = 2 * m.units := by
        rw [Int.natAbs_mul, natAbs_signedUnits]
        rfl
      rw [units_finite] at hlt hgrid
      have hrep : IsRepresentable (2 * m.units) := by
        refine isRepresentable_of_onGrid ?_ (by omega)
        rw [← habs]
        rcases Int.natAbs_eq (2 * signedUnits s m) with h | h <;> rw [h] at hgrid
        · exact hgrid
        · exact onGrid_neg.mp hgrid
      have hnum : m.units * (1 * Nat.pow 2 (unitPlaces + 1)) =
          (⟨2 * m.units, hrep⟩ : Magnitude).units * unitsPerOne := by
        change m.units * (1 * 2 ^ (unitPlaces + 1)) = 2 * m.units * 2 ^ unitPlaces
        rw [Nat.pow_succ]
        ring
      have hmul : Binary64.finite s m * two = .finite s ⟨2 * m.units, hrep⟩ := by
        change ofRatio (s != false) (m.units * (1 * Nat.pow 2 (unitPlaces + 1))) unitsPerOne = _
        rw [hnum, ofRatio, Magnitude.ofRatio?_mul _ unitsPerOne_pos, Bool.bne_false]
      rw [hmul]
      refine ⟨rfl, ?_⟩
      cases s <;> simp [signedUnits]

/-! ## Comparisons -/

theorem numericEq_iff {x y : Binary64} (hx : x.isFinite = true) (hy : y.isFinite = true) :
    x.numericEq y = true ↔ x.units = y.units := by
  cases x with
  | nan => simp [isFinite] at hx
  | infinity s => simp [isFinite] at hx
  | finite s m =>
      cases y with
      | nan => simp [isFinite] at hy
      | infinity t => simp [isFinite] at hy
      | finite t n => simp [numericEq]

theorem numericLt_iff {x y : Binary64} (hx : x.isFinite = true) (hy : y.isFinite = true) :
    x.numericLt y = true ↔ x.units < y.units := by
  cases x with
  | nan => simp [isFinite] at hx
  | infinity s => simp [isFinite] at hx
  | finite s m =>
      cases y with
      | nan => simp [isFinite] at hy
      | infinity t => simp [isFinite] at hy
      | finite t n => simp [numericLt]

/-! ## Infinities -/

/-- An infinity stays what it is when a finite number is added. -/
theorem infinity_add {s : Bool} {y : Binary64} (hy : y.isFinite = true) :
    Binary64.infinity s + y = .infinity s := by
  cases y with
  | nan => simp [isFinite] at hy
  | infinity t => simp [isFinite] at hy
  | finite t n => rfl

theorem add_infinity {s : Bool} {x : Binary64} (hx : x.isFinite = true) :
    x + Binary64.infinity s = .infinity s := by
  cases x with
  | nan => simp [isFinite] at hx
  | infinity t => simp [isFinite] at hx
  | finite t n => rfl

@[simp] theorem nan_add (x : Binary64) : Binary64.nan + x = .nan := by
  cases x <;> rfl

@[simp] theorem add_nan (x : Binary64) : x + Binary64.nan = .nan := by
  cases x <;> rfl

end MetricFormula.Binary64
