/-
  Proofs/ExactSum/Perturbation: the rounding of a sum whose tail is not yet known.

  A number `z` that its rounding changes is a multiple of some `2 ^ j`, and a tail
  below `2 ^ j` is to be added to it.  The tail cannot leave the binade of `z`
  (`scale_add`), so the rounding of the whole is that of `z`, except where `z` lies
  half-way between two neighbours and the tail points away from the chosen one: then
  it is the other neighbour (`roundUnits_add_of_lt`, `roundUnits_add_of_tie`).
-/
import MetricFormula.Proofs.Binary64.Arithmetic

set_option autoImplicit false

namespace MetricFormula.Binary64

open Magnitude (scale)

variable {z r : Int} {j : Nat}

/-! ## The binade -/

theorem two_pow_le_natAbs {x : Int} {k : Nat} (hdvd : (2 : Int) ^ k ∣ x) (hx : x ≠ 0) :
    2 ^ k ≤ x.natAbs := by
  have h := Int.natAbs_le_of_dvd_ne_zero hdvd hx
  rwa [Int.natAbs_pow] at h

/-- What rounding changes ends below the last place. -/
theorem lt_scale_of_ne (hdvd : (2 : Int) ^ j ∣ z) (hne : roundUnits z ≠ z) :
    j < scale z.natAbs := by
  have herr := error_le z
  have hstep := two_pow_le_natAbs (Int.dvd_sub hdvd (dvd_roundUnits hdvd)) (by omega)
  have hpow : 2 ^ (j + 1) ≤ 2 ^ scale z.natAbs := by
    rw [Nat.pow_succ]
    omega
  exact (Nat.pow_le_pow_iff_right (by omega : 1 < 2)).mp hpow

/-- What rounding changes keeps a distance from both ends of its binade. -/
theorem binade_of_ne (hdvd : (2 : Int) ^ j ∣ z) (hne : roundUnits z ≠ z) :
    2 ^ (52 + scale z.natAbs) + 2 ^ j ≤ z.natAbs ∧
      z.natAbs + 2 ^ j ≤ 2 ^ (53 + scale z.natAbs) := by
  have hj := lt_scale_of_ne hdvd hne
  have hlo := two_pow_scale_le (n := z.natAbs) (by omega)
  have hhi := lt_two_pow_scale z.natAbs
  have hdvdNat : 2 ^ j ∣ z.natAbs := by
    have h := Int.natAbs_dvd_natAbs.mpr hdvd
    rwa [Int.natAbs_pow] at h
  have hdvdLo : 2 ^ j ∣ 2 ^ (52 + scale z.natAbs) := Nat.pow_dvd_pow 2 (by omega)
  have hdvdHi : 2 ^ j ∣ 2 ^ (53 + scale z.natAbs) := Nat.pow_dvd_pow 2 (by omega)
  -- The lower end itself is on the grid.
  have hneLo : z.natAbs ≠ 2 ^ (52 + scale z.natAbs) := by
    intro heq
    have hgrid : OnGrid (z.natAbs : Int) := by
      rw [heq]
      exact ⟨1, 52 + scale z.natAbs, by decide, by push_cast; ring⟩
    refine hne (roundUnits_eq ?_)
    rcases Int.natAbs_eq z with h | h
    · rwa [h]
    · rw [h]
      exact hgrid.neg
  constructor
  · have := Nat.le_of_dvd (by omega) (Nat.dvd_sub hdvdNat hdvdLo)
    omega
  · have := Nat.le_of_dvd (by omega) (Nat.dvd_sub hdvdHi hdvdNat)
    omega

/-- A tail below the end of what rounding changes does not leave the binade. -/
theorem scale_add (hdvd : (2 : Int) ^ j ∣ z) (hne : roundUnits z ≠ z) (hr : r.natAbs < 2 ^ j) :
    scale (z + r).natAbs = scale z.natAbs := by
  obtain ⟨hlo, hhi⟩ := binade_of_ne hdvd hne
  have hpos : 0 < 2 ^ (52 + scale z.natAbs) := Nat.two_pow_pos _
  have hlog : (z + r).natAbs.log2 = 52 + scale z.natAbs := by
    refine (Nat.log2_eq_iff (by omega)).mpr ⟨by omega, ?_⟩
    have hpow : 2 ^ (52 + scale z.natAbs + 1) = 2 ^ (53 + scale z.natAbs) := by
      congr 1
      omega
    omega
  change (z + r).natAbs.log2 - 52 = _
  omega

/-! ## The rounding of the whole -/

/-- As long as the error with the tail is less than half of the last place, the tail
does not change the rounding. -/
theorem roundUnits_add_of_lt (hdvd : (2 : Int) ^ j ∣ z) (hne : roundUnits z ≠ z)
    (hr : r.natAbs < 2 ^ j)
    (hlt : 2 * (z + r - roundUnits z).natAbs < 2 ^ scale z.natAbs) :
    roundUnits (z + r) = roundUnits z := by
  have hscale := scale_add hdvd hne hr
  refine roundUnits_eq_of_lt ?_ (by rwa [hscale])
  rw [hscale]
  exact two_pow_scale_dvd_roundUnits z

/-- An error of less than half of the last place leaves room for the tail. -/
theorem error_add_lt (hdvd : (2 : Int) ^ j ∣ z) (hne : roundUnits z ≠ z) (hr : r.natAbs < 2 ^ j)
    (hlt : 2 * (z - roundUnits z).natAbs < 2 ^ scale z.natAbs) :
    2 * (z + r - roundUnits z).natAbs < 2 ^ scale z.natAbs := by
  have hj := lt_scale_of_ne hdvd hne
  have hhalf : 2 ^ (j + 1) ∣ 2 * (z - roundUnits z).natAbs := by
    rw [Nat.pow_succ, Nat.mul_comm]
    refine Nat.mul_dvd_mul_left 2 ?_
    have h := Int.natAbs_dvd_natAbs.mpr (Int.dvd_sub hdvd (dvd_roundUnits hdvd))
    rwa [Int.natAbs_pow] at h
  have hplace : 2 ^ (j + 1) ∣ 2 ^ scale z.natAbs := Nat.pow_dvd_pow 2 hj
  have hroom := Nat.le_of_dvd (by omega) (Nat.dvd_sub hplace hhalf)
  rw [Nat.pow_succ] at hroom
  omega

/-- Half-way between two neighbours, a tail that points away from the chosen one
turns the rounding to the other. -/
theorem roundUnits_add_of_tie (hdvd : (2 : Int) ^ j ∣ z) (hne : roundUnits z ≠ z)
    (hr : r.natAbs < 2 ^ j) (hr0 : r ≠ 0)
    (htie : 2 * (z - roundUnits z).natAbs = 2 ^ scale z.natAbs)
    (hside : (0 < z - roundUnits z ∧ 0 < r) ∨ (z - roundUnits z < 0 ∧ r < 0)) :
    roundUnits (z + r) = roundUnits z + 2 * (z - roundUnits z) := by
  have hscale := scale_add hdvd hne hr
  have hj := lt_scale_of_ne hdvd hne
  have hpow : 2 ^ (j + 1) ≤ 2 ^ scale z.natAbs := Nat.pow_le_pow_right (by omega) hj
  rw [Nat.pow_succ] at hpow
  refine roundUnits_eq_of_lt ?_ ?_
  · rw [hscale]
    refine Int.dvd_add (two_pow_scale_dvd_roundUnits z) ?_
    have hcast : ((2 * (z - roundUnits z).natAbs : Nat) : Int) = 2 ^ scale z.natAbs := by
      rw [htie]
      push_cast
      rfl
    rcases hside with ⟨hpos, _⟩ | ⟨hneg, _⟩
    · rw [show 2 * (z - roundUnits z) = 2 ^ scale z.natAbs by omega]
    · rw [show 2 * (z - roundUnits z) = -2 ^ scale z.natAbs by omega]
      exact Int.dvd_neg.mpr (dvd_refl _)
  · rw [hscale]
    omega

/-- The other neighbour of a number half-way between two is below the end of the
binade, so it is no greater than any limit that the chosen one respects. -/
theorem natAbs_neighbour_lt {M : Nat}
    (htie : 2 * (z - roundUnits z).natAbs = 2 ^ scale z.natAbs)
    (hlt : (roundUnits z).natAbs < 2 ^ M) :
    (roundUnits z + 2 * (z - roundUnits z)).natAbs < 2 ^ M := by
  have hk : 0 < scale z.natAbs := by
    by_contra h0
    rw [show scale z.natAbs = 0 by omega] at htie
    omega
  have hlo := two_pow_scale_le hk
  have hhi := lt_two_pow_scale z.natAbs
  have heven := even_of_error_eq z htie
  have hdvd := two_pow_scale_dvd_roundUnits z
  have hround : 2 ^ (52 + scale z.natAbs) ≤ (roundUnits z).natAbs := by
    have hgrid : OnGrid (2 ^ (52 + scale z.natAbs)) :=
      ⟨1, 52 + scale z.natAbs, by decide, by ring⟩
    have habs : ((2 : Int) ^ (52 + scale z.natAbs)).natAbs = 2 ^ (52 + scale z.natAbs) :=
      Int.natAbs_pow 2 _
    have := le_natAbs_roundUnits_of_le (z := z) hgrid (by omega)
    omega
  have hM : 2 ^ (53 + scale z.natAbs) ≤ 2 ^ M := by
    refine Nat.pow_le_pow_right (by omega) ?_
    have hexp := (Nat.pow_lt_pow_iff_right (by omega : 1 < 2)).mp (lt_of_le_of_lt hround hlt)
    omega
  generalize hkdef : scale z.natAbs = k at *
  have hcast : ((2 : Nat) ^ k : Int) = (2 : Int) ^ k := by push_cast; rfl
  have hstep : (2 : Int) ^ k ∣ roundUnits z + 2 * (z - roundUnits z) := by
    refine Int.dvd_add hdvd ?_
    rcases lt_or_ge 0 (z - roundUnits z) with hpos | hneg
    · rw [show 2 * (z - roundUnits z) = 2 ^ k by omega]
    · rw [show 2 * (z - roundUnits z) = -2 ^ k by omega]
      exact Int.dvd_neg.mpr (dvd_refl _)
  have hle := natAbs_le_of_dvd hstep (by omega)
  -- The end of the binade is even, and the other neighbour of an even one is odd.
  have hodd : (roundUnits z + 2 * (z - roundUnits z)).natAbs ≠ 2 ^ (53 + k) := by
    intro heq
    have hend : (2 : Int) ^ (k + 1) ∣ roundUnits z + 2 * (z - roundUnits z) := by
      have hnat : (2 : Nat) ^ (k + 1) ∣ (roundUnits z + 2 * (z - roundUnits z)).natAbs := by
        rw [heq]
        exact Nat.pow_dvd_pow 2 (by omega)
      have := Int.natCast_dvd_natCast.mpr hnat
      rw [Int.dvd_natAbs] at this
      exact_mod_cast this
    have hdiff := two_pow_le_natAbs (Int.dvd_sub hend heven) (by omega)
    rw [Nat.pow_succ] at hdiff
    have hpos : 0 < 2 ^ k := Nat.two_pow_pos k
    omega
  omega

end MetricFormula.Binary64
