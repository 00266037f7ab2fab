/-
  Proofs/ExactSum/Correct: a sum is the exact sum of its numbers, rounded once.

  As long as nothing that is carried overflows, the partials are an expansion of the
  exact sum of the numbers read so far (`insert_preserves`, `foldl_preserves`).  At the
  end they are rounded to the binary64 number nearest to that sum, a tie going to the
  even significand, and to positive zero if the sum is zero (`exactSum_roundsTo`).
-/
import MetricFormula.Proofs.ExactSum.Collapse
import MetricFormula.Binary64.Bits
import Mathlib.Algebra.BigOperators.Ring.List
import Mathlib.Tactic.Positivity

set_option autoImplicit false

namespace MetricFormula

open Binary64
open Binary64.Magnitude (scale)

/-! ## Rounding an exact value -/

/-- The last digit of the significand is 0. -/
def Binary64.EvenSignificand (x : Binary64) : Prop :=
  (2 : Int) ^ (scale x.units.natAbs + 1) ∣ x.units

/-- `x` is the exact value `q`, rounded to nearest and ties to even; a zero that is
exact is positive. -/
structure RoundsTo (q : ℚ) (x : Binary64) : Prop where
  finite : x.isFinite = true
  nearest : ∀ y : Binary64, y.isFinite = true → |q - x.value| ≤ |q - y.value|
  tie_even : ∀ y : Binary64, y.isFinite = true → y.value ≠ x.value →
    |q - x.value| = |q - y.value| → x.EvenSignificand
  exact_zero : q = 0 → x = .zero

theorem unitsPerOne_cast_pos : (0 : ℚ) < (unitsPerOne : ℚ) := by
  exact_mod_cast unitsPerOne_pos

/-- A distance of values is a distance of units. -/
theorem abs_div_sub_value (z : Int) (y : Binary64) :
    |(z : ℚ) / (unitsPerOne : ℚ) - y.value| =
      ((z - y.units).natAbs : ℚ) / (unitsPerOne : ℚ) := by
  unfold value
  rw [← sub_div, abs_div, abs_of_pos unitsPerOne_cast_pos, Nat.cast_natAbs, Int.cast_abs,
    Int.cast_sub]

/-- Where the error is half of the last place, the rounded number is even. -/
theorem even_of_tie {z t : Int} (ht : OnGrid t) (hne : t ≠ roundUnits z)
    (htie : (z - roundUnits z).natAbs = (z - t).natAbs) :
    (2 : Int) ^ (scale (roundUnits z).natAbs + 1) ∣ roundUnits z := by
  have heven := even_of_error_eq z (error_eq_of_tie ht hne htie)
  have hle := natAbs_roundUnits_le z
  rcases Nat.eq_or_lt_of_le hle with heq | hlt
  · -- The end of the binade has one digit that is set, the first.
    have hscale : scale (roundUnits z).natAbs + 1 ≤ 53 + scale z.natAbs := by
      rw [heq]
      unfold scale
      rw [Nat.log2_two_pow]
      omega
    have hnat : 2 ^ (scale (roundUnits z).natAbs + 1) ∣ (roundUnits z).natAbs := by
      conv_rhs => rw [heq]
      exact Nat.pow_dvd_pow 2 hscale
    have hint := Int.natCast_dvd_natCast.mpr hnat
    rw [Int.dvd_natAbs] at hint
    exact_mod_cast hint
  · refine dvd_trans (pow_dvd_pow 2 (Nat.succ_le_succ ?_)) heven
    by_cases h0 : 0 < scale (roundUnits z).natAbs
    · have hlow := two_pow_scale_le h0
      have := (Nat.pow_lt_pow_iff_right (by omega : 1 < 2)).mp (lt_of_le_of_lt hlow hlt)
      omega
    · omega

/-- A finite number whose units are the rounded units is the rounded value. -/
theorem roundsTo_of_units {z : Int} {x : Binary64} (hx : x.isFinite = true)
    (hunits : x.units = roundUnits z) (hzero : z = 0 → x = .zero) :
    RoundsTo ((z : ℚ) / (unitsPerOne : ℚ)) x := by
  refine ⟨hx, ?_, ?_, ?_⟩
  · intro y _
    rw [abs_div_sub_value, abs_div_sub_value, hunits]
    refine div_le_div_of_nonneg_right ?_ unitsPerOne_cast_pos.le
    exact_mod_cast nearest (onGrid_units y)
  · intro y _ hne htie
    rw [abs_div_sub_value, abs_div_sub_value,
      div_left_inj' (ne_of_gt unitsPerOne_cast_pos)] at htie
    unfold EvenSignificand
    rw [hunits] at htie ⊢
    refine even_of_tie (onGrid_units y) ?_ (by exact_mod_cast htie)
    intro heq
    exact hne (by unfold value; rw [heq, hunits])
  · intro hq
    refine hzero ?_
    rcases div_eq_zero_iff.mp hq with h | h
    · exact_mod_cast h
    · exact absurd h (ne_of_gt unitsPerOne_cast_pos)

theorem sum_map_value (xs : List Binary64) :
    (xs.map value).sum = (ExactSum.total xs : ℚ) / (unitsPerOne : ℚ) := by
  induction xs with
  | nil => simp
  | cons x xs ih =>
      rw [List.map_cons, List.sum_cons, ih, ExactSum.total_cons, Int.cast_add, add_div]
      rfl

namespace ExactSum

/-! ## What overflows -/

/-- The sums that are computed while a number is carried through partials. -/
def carryHighs (x : Binary64) : List Binary64 → List Binary64
  | [] => []
  | y :: ys =>
      let high := (twoSum x y).1
      high :: carryHighs high ys

/-- The sums that are computed from a running sum on: those of each finite number that
is carried through the partials, then those of rounding the partials, unless
something was not finite. -/
def highs (s : ExactSum) : List Binary64 → List Binary64
  | [] => if s.special.isNone then roundHighs s.partials else []
  | x :: xs => (if x.isFinite then carryHighs x s.partials else []) ++ highs (s.insert x) xs

theorem carry_top_mem (x : Binary64) (ps : List Binary64) :
    (carry x ps).2 ∈ x :: carryHighs x ps := by
  induction ps generalizing x with
  | nil => exact List.mem_cons_self
  | cons y ys ih => exact List.mem_cons_of_mem x (ih (twoSum x y).1)

/-! ## The running sum -/

/-- Inserting a finite number keeps the partials an expansion of the exact sum, unless
a sum on the way overflows. -/
theorem insert_preserves {s : ExactSum} (hs : Expansion s.partials) {x : Binary64}
    (hx : x.isFinite = true) (hhighs : ∀ t : Bool, .infinity t ∉ carryHighs x s.partials) :
    Expansion (s.insert x).partials ∧
      total (s.insert x).partials = x.units + total s.partials ∧
      (s.insert x).special = s.special := by
  have hinsert : s.insert x = s.addFinite x := if_pos hx
  rw [hinsert]
  refine addFinite_of_top_ne_infinity hs hx ?_
  intro t htop
  have hmem := carry_top_mem x s.partials
  rw [htop] at hmem
  rcases List.mem_cons.mp hmem with h | h
  · rw [← h] at hx
    simp [isFinite] at hx
  · exact hhighs t h

/-- Inserting finite numbers one after the other keeps the partials an expansion of
the exact sum, unless a sum on the way overflows. -/
theorem foldl_preserves {xs : List Binary64} (hxs : ∀ x ∈ xs, x.isFinite = true) {s : ExactSum}
    (hs : Expansion s.partials) (hspecial : s.special = none)
    (hhighs : ∀ t : Bool, .infinity t ∉ highs s xs) :
    Expansion (xs.foldl insert s).partials ∧
      total (xs.foldl insert s).partials = total s.partials + total xs ∧
      (xs.foldl insert s).special = none ∧
      ∀ t : Bool, .infinity t ∉ roundHighs (xs.foldl insert s).partials := by
  induction xs generalizing s with
  | nil =>
      refine ⟨hs, by simp, hspecial, ?_⟩
      intro t ht
      refine hhighs t ?_
      simpa [highs, hspecial] using ht
  | cons x xs ih =>
      have hx := hxs x List.mem_cons_self
      simp only [highs, if_pos hx, List.mem_append, not_or] at hhighs
      obtain ⟨hexp, htotal, hsame⟩ := insert_preserves hs hx fun t => (hhighs t).1
      obtain ⟨hexp', htotal', hspecial', hround⟩ :=
        ih (fun y hy => hxs y (List.mem_cons_of_mem x hy)) hexp (hsame.trans hspecial)
          fun t => (hhighs t).2
      refine ⟨hexp', ?_, hspecial', hround⟩
      rw [List.foldl_cons, htotal', htotal, total_cons]
      omega

end ExactSum

/-! ## The sum -/

/-- The sum of finite numbers, none of whose intermediate sums overflows, is their
exact sum rounded to the nearest number, a tie going to the even significand, and an
exact sum of zero giving positive zero. -/
theorem exactSum_roundsTo {xs : List Binary64} (hxs : ∀ x ∈ xs, x.isFinite = true)
    (hhighs : ∀ t : Bool, .infinity t ∉ ExactSum.highs .empty xs) :
    RoundsTo (xs.map value).sum (exactSum xs) := by
  have hrun := ExactSum.foldl_preserves hxs (s := .empty) ExactSum.expansion_nil rfl hhighs
  rw [show xs.foldl ExactSum.insert .empty = ExactSum.ofList xs from rfl] at hrun
  obtain ⟨hexp, htotal, hspecial, hround⟩ := hrun
  rw [show ExactSum.total ExactSum.empty.partials = 0 from rfl, Int.zero_add] at htotal
  have hread : exactSum xs = ExactSum.roundPartials (ExactSum.ofList xs).partials := by
    unfold exactSum ExactSum.toBinary64
    rw [hspecial]
    rfl
  rw [sum_map_value, hread]
  rcases ExactSum.roundPartials_cases hexp with ⟨hfin, hunits⟩ | ⟨t, hmem, _⟩
  · rw [htotal] at hunits
    refine roundsTo_of_units hfin hunits ?_
    intro h0
    rw [hexp.eq_nil_of_total_eq_zero (htotal.trans h0)]
    rfl
  · exact absurd hmem (hround t)

/-- One, half of its last place, and something smaller still: neither the tie nor the
third number alone would move the sum. -/
theorem exactSum_roundsTo_broken_tie :
    exactSum [ofBits 0x3ff0000000000000, ofBits 0x3ca0000000000000, ofBits 0x3af0000000000000] =
        ofBits 0x3ff0000000000001 ∧
      RoundsTo ([ofBits 0x3ff0000000000000, ofBits 0x3ca0000000000000,
          ofBits 0x3af0000000000000].map value).sum
        (exactSum [ofBits 0x3ff0000000000000, ofBits 0x3ca0000000000000,
          ofBits 0x3af0000000000000]) := by
  refine ⟨by decide +kernel, exactSum_roundsTo ?_ ?_⟩
  · decide +kernel
  · decide +kernel

end MetricFormula
