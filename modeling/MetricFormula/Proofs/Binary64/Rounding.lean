/-
  Proofs/Binary64/Rounding: rounding whole numbers of units to 53 digits.

  All finite numbers are whole multiples of one unit, so a sum of them is rounded as
  an integer.  `roundUnits` is that rounding without a bound above, and what the
  theory of summation needs of it is stated on integers:

      error_le          the error is at most half of the last place
      nearest           nothing with 53 digits is nearer
      dvd_roundUnits    a multiple of a power of two stays one
      roundUnits_eq     what has 53 digits is not changed

  A number has 53 digits at some scale if it is `OnGrid`.
-/
import MetricFormula.Binary64.Basic
import Mathlib.Tactic.Linarith
import Mathlib.Tactic.Ring

set_option autoImplicit false

namespace MetricFormula.Binary64

open Magnitude (roundHalfEven scale)

/-! ## Rounding a ratio -/

/-- The rounding of a ratio is off by at most a half, and is even if it is off by
exactly a half. -/
theorem roundHalfEven_spec (num : Nat) {den : Nat} (hden : 0 < den) :
    2 * ((num : Int) - roundHalfEven num den * den).natAbs ≤ den ∧
      (2 * ((num : Int) - roundHalfEven num den * den).natAbs = den →
        roundHalfEven num den % 2 = 0) := by
  have hlt : num % den < den := Nat.mod_lt num hden
  have hsplit : (num : Int) = ((num / den : Nat) : Int) * den + ((num % den : Nat) : Int) := by
    exact_mod_cast (Nat.div_add_mod' num den).symm
  unfold roundHalfEven
  dsimp only
  generalize num / den = q at *
  generalize num % den = r at *
  split
  · rename_i hup
    have herr : (num : Int) - ((q + 1 : Nat) : Int) * den = (r : Int) - den := by
      rw [hsplit]
      push_cast
      ring
    rw [herr]
    omega
  · rename_i hdown
    have herr : (num : Int) - (q : Int) * den = r := by
      rw [hsplit]
      ring
    rw [herr]
    omega

/-! ## The grid -/

/-- A whole number of at most 53 significant digits, at any scale. -/
def OnGrid (z : Int) : Prop := ∃ (n : Int) (k : Nat), n.natAbs ≤ 2 ^ 53 ∧ z = n * 2 ^ k

theorem OnGrid.neg {z : Int} (h : OnGrid z) : OnGrid (-z) := by
  obtain ⟨n, k, hn, rfl⟩ := h
  exact ⟨-n, k, by rwa [Int.natAbs_neg], by ring⟩

theorem onGrid_neg {z : Int} : OnGrid (-z) ↔ OnGrid z :=
  ⟨fun h => by simpa using h.neg, OnGrid.neg⟩

/-- A multiple of a power of two that is at most 2^53 times that power. -/
theorem onGrid_of_dvd {z : Int} {k : Nat} (hdvd : (2 : Int) ^ k ∣ z)
    (hle : z.natAbs ≤ 2 ^ (53 + k)) : OnGrid z := by
  obtain ⟨n, rfl⟩ := hdvd
  refine ⟨n, k, ?_, by ring⟩
  rw [Int.natAbs_mul, Int.natAbs_pow, Nat.pow_add, Nat.mul_comm] at hle
  exact Nat.le_of_mul_le_mul_right hle (Nat.two_pow_pos k)

/-- What is on the grid and at least `2 ^ (52 + k)` in magnitude is a multiple of
`2 ^ k`. -/
theorem OnGrid.dvd_of_le {z : Int} {k : Nat} (h : OnGrid z) (hle : 2 ^ (52 + k) ≤ z.natAbs) :
    (2 : Int) ^ k ∣ z := by
  obtain ⟨n, j, hn, rfl⟩ := h
  rw [Int.natAbs_mul, Int.natAbs_pow] at hle
  by_cases hkj : k ≤ j
  · exact Dvd.dvd.mul_left (pow_dvd_pow 2 hkj) n
  · -- Only the largest significand reaches so far at a smaller scale.
    have hj : 2 ^ (52 + k) ≤ 2 ^ (53 + j) :=
      calc 2 ^ (52 + k) ≤ n.natAbs * (2 : Int).natAbs ^ j := hle
        _ ≤ 2 ^ 53 * 2 ^ j := Nat.mul_le_mul_right _ hn
        _ = 2 ^ (53 + j) := (Nat.pow_add 2 53 j).symm
    have hkj' : k = j + 1 := by
      have := (Nat.pow_le_pow_iff_right (by omega : 1 < 2)).mp hj
      omega
    subst hkj'
    have hn' : n.natAbs = 2 ^ 53 := by
      refine Nat.le_antisymm hn (Nat.le_of_mul_le_mul_right ?_ (Nat.two_pow_pos j))
      calc 2 ^ 53 * 2 ^ j = 2 ^ (52 + (j + 1)) := by rw [← Nat.pow_add]; congr 1; omega
        _ ≤ n.natAbs * (2 : Int).natAbs ^ j := hle
    have htwo : (2 : Int) ∣ n := by omega
    rw [pow_succ, mul_comm n]
    exact mul_dvd_mul_left _ htwo

/-! ## The rounding -/

/-- A natural number of units, rounded to 53 digits. -/
def roundMagnitude (n : Nat) : Nat := roundHalfEven n (2 ^ scale n) * 2 ^ scale n

/-- A whole number of units, rounded to 53 digits. -/
def roundUnits (z : Int) : Int :=
  if z < 0 then -(roundMagnitude z.natAbs : Int) else roundMagnitude z.natAbs

theorem roundUnits_neg (z : Int) : roundUnits (-z) = -roundUnits z := by
  unfold roundUnits
  rw [Int.natAbs_neg]
  rcases lt_trichotomy z 0 with h | rfl | h
  · rw [if_neg (by omega), if_pos h, neg_neg]
  · decide
  · rw [if_pos (by omega), if_neg (by omega)]

theorem roundUnits_of_nonneg {z : Int} (h : 0 ≤ z) :
    roundUnits z = roundMagnitude z.natAbs := if_neg (by omega)

/-- Statements about rounding that do not depend on the sign. -/
theorem roundUnits_sign_cases {P : Int → Int → Prop} (hneg : ∀ z r, P (-z) (-r) → P z r)
    (hpos : ∀ z, 0 ≤ z → P z (roundUnits z)) (z : Int) : P z (roundUnits z) := by
  rcases le_total 0 z with h | h
  · exact hpos z h
  · refine hneg z _ ?_
    rw [← roundUnits_neg]
    exact hpos (-z) (by omega)

theorem lt_two_pow_scale (n : Nat) : n < 2 ^ (53 + scale n) := by
  by_cases h : n = 0
  · subst h
    exact Nat.two_pow_pos _
  · exact (Nat.log2_lt h).mp (by unfold scale; omega)

theorem two_pow_scale_le {n : Nat} (h : 0 < scale n) : 2 ^ (52 + scale n) ≤ n := by
  have hn : n ≠ 0 := by
    rintro rfl
    simp [scale] at h
  refine (Nat.le_log2 hn).mp ?_
  unfold scale at *
  omega

theorem two_pow_scale_dvd_roundUnits (z : Int) : (2 : Int) ^ scale z.natAbs ∣ roundUnits z := by
  unfold roundUnits roundMagnitude
  push_cast
  split
  · exact Int.dvd_neg.mpr (dvd_mul_left _ _)
  · exact dvd_mul_left _ _

/-- The error is at most half of the last place. -/
theorem error_le (z : Int) : 2 * (z - roundUnits z).natAbs ≤ 2 ^ scale z.natAbs := by
  refine roundUnits_sign_cases (P := fun z r => 2 * (z - r).natAbs ≤ 2 ^ scale z.natAbs) ?_ ?_ z
  · intro z r h
    rw [Int.natAbs_neg] at h
    omega
  · intro z hz
    have h := (roundHalfEven_spec z.natAbs (Nat.two_pow_pos (scale z.natAbs))).1
    rw [roundUnits_of_nonneg hz]
    unfold roundMagnitude
    rw [Int.natAbs_of_nonneg hz] at h
    push_cast at h ⊢
    exact h

/-- At half of the last place the significand is even. -/
theorem even_of_error_eq (z : Int) (h : 2 * (z - roundUnits z).natAbs = 2 ^ scale z.natAbs) :
    (2 : Int) ^ (scale z.natAbs + 1) ∣ roundUnits z := by
  revert h
  refine roundUnits_sign_cases (P := fun z r => 2 * (z - r).natAbs = 2 ^ scale z.natAbs →
    (2 : Int) ^ (scale z.natAbs + 1) ∣ r) ?_ ?_ z
  · intro z r h htie
    rw [Int.natAbs_neg, Int.dvd_neg] at h
    exact h (by omega)
  · intro z hz htie
    have h := (roundHalfEven_spec z.natAbs (Nat.two_pow_pos (scale z.natAbs))).2
    rw [roundUnits_of_nonneg hz] at htie ⊢
    unfold roundMagnitude at htie ⊢
    rw [Int.natAbs_of_nonneg hz] at h
    push_cast at h htie ⊢
    have heven : (2 : Int) ∣ roundHalfEven z.natAbs (2 ^ scale z.natAbs) := by
      have := h htie
      omega
    rw [pow_succ, mul_comm]
    exact mul_dvd_mul_right heven _

/-- A multiple of a power of two has no room between 2^53 times that power and the
next multiple. -/
theorem natAbs_le_of_dvd {z : Int} {k : Nat} (hdvd : (2 : Int) ^ k ∣ z)
    (hlt : z.natAbs < 2 ^ (53 + k) + 2 ^ k) : z.natAbs ≤ 2 ^ (53 + k) := by
  obtain ⟨c, rfl⟩ := hdvd
  rw [Int.natAbs_mul, Int.natAbs_pow] at hlt ⊢
  change 2 ^ k * c.natAbs < _ at hlt
  change 2 ^ k * c.natAbs ≤ _
  have hc : c.natAbs < 2 ^ 53 + 1 := by
    refine Nat.lt_of_mul_lt_mul_left (a := 2 ^ k) ?_
    calc 2 ^ k * c.natAbs < 2 ^ (53 + k) + 2 ^ k := hlt
      _ = 2 ^ k * (2 ^ 53 + 1) := by rw [Nat.pow_add]; ring
  calc 2 ^ k * c.natAbs ≤ 2 ^ k * 2 ^ 53 := Nat.mul_le_mul_left _ (Nat.le_of_lt_succ hc)
    _ = 2 ^ (53 + k) := by rw [Nat.pow_add, Nat.mul_comm]

theorem natAbs_roundUnits_le (z : Int) : (roundUnits z).natAbs ≤ 2 ^ (53 + scale z.natAbs) := by
  have hz := lt_two_pow_scale z.natAbs
  have herr := error_le z
  have hpos : 0 < 2 ^ scale z.natAbs := Nat.two_pow_pos _
  exact natAbs_le_of_dvd (two_pow_scale_dvd_roundUnits z) (by omega)

theorem onGrid_roundUnits (z : Int) : OnGrid (roundUnits z) :=
  onGrid_of_dvd (two_pow_scale_dvd_roundUnits z) (natAbs_roundUnits_le z)

/-! ## Nearness -/

/-- On a lattice nothing is nearer than what is at most half a step away. -/
theorem natAbs_sub_le_of_dvd {z r t d : Int} (hr : d ∣ r) (ht : d ∣ t)
    (h : 2 * (z - r).natAbs ≤ d.natAbs) : (z - r).natAbs ≤ (z - t).natAbs := by
  obtain ⟨c, hc⟩ := Int.dvd_sub hr ht
  by_cases hc0 : c = 0
  · subst hc0
    omega
  · have hstep : d.natAbs ≤ (r - t).natAbs := by
      rw [hc, Int.natAbs_mul]
      exact Nat.le_mul_of_pos_right _ (Int.natAbs_pos.mpr hc0)
    omega

/-- What is below the last binade on the grid is no nearer than its lower end. -/
theorem natAbs_sub_lt_of_lt {z t b : Int} (hb : 0 ≤ b) (hbz : b.natAbs ≤ z.natAbs)
    (ht : t.natAbs < b.natAbs) :
    (z - (if z < 0 then -b else b)).natAbs < (z - t).natAbs := by
  split <;> omega

/-- Nothing on the grid is nearer to a number than its rounding. -/
theorem nearest {z t : Int} (ht : OnGrid t) : (z - roundUnits z).natAbs ≤ (z - t).natAbs := by
  have hr := two_pow_scale_dvd_roundUnits z
  have herr := error_le z
  have hd : ((2 : Int) ^ scale z.natAbs).natAbs = 2 ^ scale z.natAbs := Int.natAbs_pow 2 _
  by_cases hk : 0 < scale z.natAbs
  · have hz := two_pow_scale_le hk
    by_cases hle : 2 ^ (52 + scale z.natAbs) ≤ t.natAbs
    · exact natAbs_sub_le_of_dvd hr (ht.dvd_of_le hle) (by omega)
    · -- The lower end of the binade of `z` is on the same lattice and nearer than `t`.
      have hb : ((2 : Int) ^ (52 + scale z.natAbs)).natAbs = 2 ^ (52 + scale z.natAbs) :=
        Int.natAbs_pow 2 _
      have hend := natAbs_sub_lt_of_lt (z := z) (t := t) (b := 2 ^ (52 + scale z.natAbs))
        (by positivity) (by omega) (by omega)
      refine le_trans (natAbs_sub_le_of_dvd hr ?_ (by omega)) hend.le
      have hdvd : (2 : Int) ^ scale z.natAbs ∣ 2 ^ (52 + scale z.natAbs) :=
        pow_dvd_pow 2 (by omega)
      split
      · exact Int.dvd_neg.mpr hdvd
      · exact hdvd
  · have h0 : scale z.natAbs = 0 := by omega
    rw [h0] at herr
    omega

/-- What is on the grid is its own rounding. -/
theorem roundUnits_eq {z : Int} (h : OnGrid z) : roundUnits z = z := by
  have := nearest (z := z) h
  omega

/-- Where something on the grid is as near as the rounding, the rounding is off by
half of the last place. -/
theorem error_eq_of_tie {z t : Int} (ht : OnGrid t) (hne : t ≠ roundUnits z)
    (htie : (z - roundUnits z).natAbs = (z - t).natAbs) :
    2 * (z - roundUnits z).natAbs = 2 ^ scale z.natAbs := by
  have hr := two_pow_scale_dvd_roundUnits z
  have herr := error_le z
  have hd : ((2 : Int) ^ scale z.natAbs).natAbs = 2 ^ scale z.natAbs := Int.natAbs_pow 2 _
  by_cases hk : 0 < scale z.natAbs
  · have hz := two_pow_scale_le hk
    have hle : 2 ^ (52 + scale z.natAbs) ≤ t.natAbs := by
      by_contra hlt
      have hb : ((2 : Int) ^ (52 + scale z.natAbs)).natAbs = 2 ^ (52 + scale z.natAbs) :=
        Int.natAbs_pow 2 _
      have hend := natAbs_sub_lt_of_lt (z := z) (t := t) (b := 2 ^ (52 + scale z.natAbs))
        (by positivity) (by omega) (by omega)
      have hnear := nearest (z := z)
        (t := if z < 0 then -2 ^ (52 + scale z.natAbs) else 2 ^ (52 + scale z.natAbs)) (by
          have hgrid : OnGrid (2 ^ (52 + scale z.natAbs)) :=
            ⟨1, 52 + scale z.natAbs, by decide, by ring⟩
          split
          · exact hgrid.neg
          · exact hgrid)
      omega
    obtain ⟨c, hc⟩ := Int.dvd_sub hr (ht.dvd_of_le hle)
    have hc0 : c ≠ 0 := by
      rintro rfl
      omega
    have hstep : 2 ^ scale z.natAbs ≤ (roundUnits z - t).natAbs := by
      rw [hc, Int.natAbs_mul, hd]
      exact Nat.le_mul_of_pos_right _ (Int.natAbs_pos.mpr hc0)
    omega
  · have h0 : scale z.natAbs = 0 := by omega
    rw [h0] at herr
    omega

/-- A multiple of a power of two is rounded to one. -/
theorem dvd_roundUnits {z : Int} {m : Nat} (h : (2 : Int) ^ m ∣ z) :
    (2 : Int) ^ m ∣ roundUnits z := by
  by_cases hm : m ≤ scale z.natAbs
  · exact dvd_trans (pow_dvd_pow 2 hm) (two_pow_scale_dvd_roundUnits z)
  · have hgrid : OnGrid z := by
      have hdvd : (2 : Int) ^ scale z.natAbs ∣ z := dvd_trans (pow_dvd_pow 2 (by omega)) h
      exact onGrid_of_dvd hdvd (lt_two_pow_scale z.natAbs).le
    rwa [roundUnits_eq hgrid]

theorem roundUnits_nonneg {z : Int} (h : 0 ≤ z) : 0 ≤ roundUnits z := by
  rw [roundUnits_of_nonneg h]
  exact Int.natCast_nonneg _

theorem roundUnits_nonpos {z : Int} (h : z ≤ 0) : roundUnits z ≤ 0 := by
  have hneg := roundUnits_nonneg (z := -z) (by omega)
  rw [roundUnits_neg] at hneg
  omega

/-- Whatever on the lattice of the last place is less than half of it away is the
rounding. -/
theorem roundUnits_eq_of_lt {z r : Int} (hdvd : (2 : Int) ^ scale z.natAbs ∣ r)
    (hlt : 2 * (z - r).natAbs < 2 ^ scale z.natAbs) : roundUnits z = r := by
  have herr := error_le z
  obtain ⟨c, hc⟩ := Int.dvd_sub (two_pow_scale_dvd_roundUnits z) hdvd
  have hc0 : c = 0 := by
    by_contra hne
    have hstep : 2 ^ scale z.natAbs ≤ (roundUnits z - r).natAbs := by
      rw [hc, Int.natAbs_mul, Int.natAbs_pow]
      exact Nat.le_mul_of_pos_right _ (Int.natAbs_pos.mpr hne)
    omega
  subst hc0
  omega

/-- The magnitude of a rounding is at least that of whatever on the grid is not above
the number in magnitude. -/
theorem le_natAbs_roundUnits_of_le {z t : Int} (ht : OnGrid t) (h : t.natAbs ≤ z.natAbs) :
    t.natAbs ≤ (roundUnits z).natAbs := by
  have h₁ := nearest (z := z) ht
  have h₂ := nearest (z := z) ht.neg
  omega

end MetricFormula.Binary64
