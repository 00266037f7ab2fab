/-
  Proofs/ExactSum/Invariant: what holds of the partials while numbers are being summed.

  The numbers are read one after the other.  As long as no addition has overflowed, the
  partials after each of them are finite and not zero, they increase in magnitude, each one is
  smaller than the lowest set digit of every later one, and their exact sum is that of the
  finite numbers read so far (`partials_exact`).  One number keeps this up (`insert_expands`),
  and so does any number of them (`foldl_expands`).
-/
import MetricFormula.Proofs.ExactSum.Correct
import Mathlib.NumberTheory.Padics.PadicVal.Basic

set_option autoImplicit false

namespace MetricFormula

namespace Binary64

variable {x y : Binary64}

/-! ## The lowest set digit -/

/-- The weight of the lowest digit that is set in a finite number other than zero. -/
def lowestDigit (x : Binary64) : ℚ := 2 ^ padicValNat 2 x.units.natAbs / (unitsPerOne : ℚ)

theorem abs_value (x : Binary64) : |x.value| = (x.units.natAbs : ℚ) / (unitsPerOne : ℚ) := by
  have h := abs_div_sub_value 0 x
  rw [Int.cast_zero, zero_div, zero_sub, abs_neg, Int.zero_sub, Int.natAbs_neg] at h
  exact h

theorem value_ne_zero (h : x.units ≠ 0) : x.value ≠ 0 := by
  apply div_ne_zero
  · exact_mod_cast h
  · exact unitsPerOne_cast_pos.ne'

/-- No digit below the lowest one is set, so the number is at least as great. -/
theorem lowestDigit_le_abs_value (h : x.units ≠ 0) : x.lowestDigit ≤ |x.value| := by
  have hle : 2 ^ padicValNat 2 x.units.natAbs ≤ x.units.natAbs :=
    Nat.le_of_dvd (Int.natAbs_pos.mpr h) pow_padicValNat_dvd
  rw [abs_value, lowestDigit]
  apply div_le_div_of_nonneg_right _ unitsPerOne_cast_pos.le
  exact_mod_cast hle

/-- To lie below a number other than zero is to be smaller than its lowest set digit. -/
theorem abs_value_lt_lowestDigit (hy : y.units ≠ 0) (h : ExactSum.Below x.units y.units) :
    |x.value| < y.lowestDigit := by
  obtain ⟨k, hk, hdvd⟩ := h
  have hdvdNat : 2 ^ k ∣ y.units.natAbs := by
    have := Int.natAbs_dvd_natAbs.mpr hdvd
    rwa [Int.natAbs_pow] at this
  have hkle : k ≤ padicValNat 2 y.units.natAbs :=
    (padicValNat_dvd_iff_le (Int.natAbs_ne_zero.mpr hy)).mp hdvdNat
  have hlt : x.units.natAbs < 2 ^ padicValNat 2 y.units.natAbs :=
    Nat.lt_of_lt_of_le hk (Nat.pow_le_pow_right (by omega) hkle)
  rw [abs_value, lowestDigit]
  apply div_lt_div_of_pos_right _ unitsPerOne_cast_pos
  exact_mod_cast hlt

end Binary64

open Binary64

namespace ExactSum

variable {s : ExactSum} {x : Binary64} {xs : List Binary64}

/-! ## Partials of an exact value -/

/-- The partials represent `exact` without loss: finite numbers other than zero, in the order
of their magnitudes, which do not overlap and add up to it. -/
structure Represents (ps : List Binary64) (exact : ℚ) : Prop where
  finite : ∀ p ∈ ps, p.isFinite = true
  nonzero : ∀ p ∈ ps, p.value ≠ 0
  increasing : ps.Pairwise fun p q => |p.value| < |q.value|
  nonoverlapping : ps.Pairwise fun p q => |p.value| < q.lowestDigit
  sum_eq : (ps.map value).sum = exact

/-- An expansion represents its exact sum. -/
theorem Expansion.represents {ps : List Binary64} (h : Expansion ps) :
    Represents ps (ps.map value).sum := by
  have hnonoverlapping : ps.Pairwise fun p q => |p.value| < q.lowestDigit := by
    apply h.below.imp_of_mem
    intro p q _ hq hbelow
    exact abs_value_lt_lowestDigit (h.nonzero q hq) hbelow
  refine ⟨h.finite, ?_, ?_, hnonoverlapping, rfl⟩
  · intro p hp
    exact value_ne_zero (h.nonzero p hp)
  · apply hnonoverlapping.imp_of_mem
    intro p q _ hq hlt
    exact lt_of_lt_of_le hlt (lowestDigit_le_abs_value (h.nonzero q hq))

/-! ## A run -/

/-- The sums that are computed while the finite ones of the numbers are carried through the
partials, from a running sum on. -/
def carriedSums (s : ExactSum) : List Binary64 → List Binary64
  | [] => []
  | x :: xs => (if x.isFinite then carryHighs x s.partials else []) ++ carriedSums (s.insert x) xs

theorem partials_insert_of_not_isFinite (hx : x.isFinite = false) :
    (s.insert x).partials = s.partials := by
  rw [insert, hx]
  rfl

/-- One more number keeps the partials an expansion, to which it is added if it is finite. -/
theorem insert_expands (hs : Expansion s.partials)
    (hsums : ∀ t : Bool, .infinity t ∉ carriedSums s [x]) :
    Expansion (s.insert x).partials ∧
      total (s.insert x).partials = total s.partials + total ([x].filter isFinite) := by
  by_cases hx : x.isFinite = true
  · rw [carriedSums, if_pos hx, carriedSums, List.append_nil] at hsums
    obtain ⟨hexp, htotal, -⟩ := insert_preserves hs hx hsums
    refine ⟨hexp, ?_⟩
    rw [htotal, List.filter_cons_of_pos hx, List.filter_nil, total_cons, total_nil]
    omega
  · rw [Bool.not_eq_true] at hx
    rw [partials_insert_of_not_isFinite hx, List.filter_cons_of_neg (by simp [hx]),
      List.filter_nil, total_nil, Int.add_zero]
    exact ⟨hs, rfl⟩

/-- Any number of further numbers keeps the partials an expansion, to which the finite ones
among them are added. -/
theorem foldl_expands (hs : Expansion s.partials)
    (hsums : ∀ t : Bool, .infinity t ∉ carriedSums s xs) :
    Expansion (xs.foldl insert s).partials ∧
      total (xs.foldl insert s).partials = total s.partials + total (xs.filter isFinite) := by
  induction xs generalizing s with
  | nil => exact ⟨hs, by simp⟩
  | cons x xs ih =>
      simp only [carriedSums, List.mem_append, not_or] at hsums
      obtain ⟨hexp, htotal⟩ := insert_expands hs fun t => by
        simpa [carriedSums] using (hsums t).1
      obtain ⟨hexp', htotal'⟩ := ih hexp fun t => (hsums t).2
      have hfilter : (x :: xs).filter isFinite = [x].filter isFinite ++ xs.filter isFinite :=
        List.filter_append [x] xs
      refine ⟨hexp', ?_⟩
      rw [List.foldl_cons, htotal', htotal, hfilter, total_append, Int.add_assoc]

end ExactSum

/-- After each of the numbers the partials represent the exact sum of the finite ones read so
far, if no addition has overflowed until then. -/
theorem partials_exact (xs : List Binary64) (n : Nat)
    (hsums : ∀ t : Bool, .infinity t ∉ ExactSum.carriedSums .empty (xs.take n)) :
    ExactSum.Represents ((xs.take n).foldl ExactSum.insert .empty).partials
      (((xs.take n).filter isFinite).map value).sum := by
  obtain ⟨hexp, htotal⟩ := ExactSum.foldl_expands ExactSum.expansion_nil hsums
  rw [show ExactSum.total ExactSum.empty.partials = 0 from rfl, Int.zero_add] at htotal
  have hsum := sum_map_value ((xs.take n).foldl ExactSum.insert .empty).partials
  rw [htotal, ← sum_map_value] at hsum
  rw [← hsum]
  exact hexp.represents

/-- A great number, one, an infinity, and the least number of all, before the great number is
taken away again: three partials that are far apart. -/
theorem partials_exact_apart :
    ((([ofBits 0x7fe0000000000000, .one, .infinity false, ofBits 1, ofBits 0xffe0000000000000] :
        List Binary64).take 4).foldl ExactSum.insert .empty).partials =
        [ofBits 1, .one, ofBits 0x7fe0000000000000] ∧
      ExactSum.Represents [ofBits 1, .one, ofBits 0x7fe0000000000000]
        ((([ofBits 0x7fe0000000000000, .one, .infinity false, ofBits 1].filter
          isFinite).map value).sum) := by
  have hpartials : ((([ofBits 0x7fe0000000000000, .one, .infinity false, ofBits 1,
      ofBits 0xffe0000000000000] : List Binary64).take 4).foldl ExactSum.insert .empty).partials =
      [ofBits 1, .one, ofBits 0x7fe0000000000000] := by
    decide +kernel
  have hsums : ∀ t : Bool, .infinity t ∉ ExactSum.carriedSums .empty ([ofBits 0x7fe0000000000000,
      .one, .infinity false, ofBits 1, ofBits 0xffe0000000000000].take 4) := by
    decide +kernel
  have h := partials_exact [ofBits 0x7fe0000000000000, .one, .infinity false, ofBits 1,
    ofBits 0xffe0000000000000] 4 hsums
  rw [hpartials] at h
  exact ⟨hpartials, h⟩

end MetricFormula
