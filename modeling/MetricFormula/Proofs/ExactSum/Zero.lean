/-
  Proofs/ExactSum/Zero: sums and the signs of zeros.

  No partial of a running sum is zero, and what it keeps apart is not finite (`Proper`).  A
  zero of either sign is therefore carried through the partials without a trace
  (`insert_of_isZero`), and a sum does not depend on the signs of the zeros in it
  (`exactSum_plain`).

  The sum itself is never the negative zero (`exactSum_ne_negativeZero`): it is zero where no
  partial is left, or as a sum that starts from a partial, which is not zero.
-/
import MetricFormula.Proofs.Binary64.Zero
import MetricFormula.Proofs.ExactSum.TwoSum

set_option autoImplicit false

namespace MetricFormula.ExactSum

open Binary64

variable {s : ExactSum} {x x' y : Binary64} {ps : List Binary64}

/-! ## What every running sum has -/

/-- No partial is zero, and the sum of what is not finite is not finite. -/
structure Proper (s : ExactSum) : Prop where
  partials : ∀ p ∈ s.partials, p.isZero = false
  special : ∀ v, s.special = some v → v.isFinite = false

theorem proper_empty : Proper empty where
  partials := by simp [empty]
  special := by simp [empty]

/-- What stays behind of a carried number is not zero. -/
theorem not_isZero_of_mem_carry (x : Binary64) (ps : List Binary64) :
    ∀ p ∈ (carry x ps).1, p.isZero = false := by
  induction ps generalizing x with
  | nil => simp [carry]
  | cons y ys ih =>
      intro p hp
      simp only [carry] at hp
      split at hp
      · exact ih _ p hp
      · rename_i hlow
        rcases List.mem_cons.mp hp with rfl | hp
        · exact Bool.eq_false_of_not_eq_true hlow
        · exact ih _ p hp

theorem Proper.addSpecial (hs : s.Proper) (hx : x.isFinite = false) : (s.addSpecial x).Proper where
  partials := hs.partials
  special := by
    intro v hv
    obtain rfl := Option.some.inj hv
    by_contra hfinite
    rw [Bool.not_eq_false] at hfinite
    exact absurd (isFinite_of_add hfinite).2 (by simp [hx])

theorem Proper.addFinite (hs : s.Proper) (x : Binary64) : (s.addFinite x).Proper := by
  have hkept : Proper { s with partials := (carry x s.partials).1 } :=
    ⟨not_isZero_of_mem_carry x s.partials, hs.special⟩
  simp only [ExactSum.addFinite]
  split
  · rename_i htop
    exact hkept.addSpecial (by simpa using htop)
  · split
    · exact hkept
    · rename_i htop
      refine ⟨fun p hp => ?_, hs.special⟩
      rcases List.mem_append.mp hp with hp | hp
      · exact hkept.partials p hp
      · obtain rfl := List.mem_singleton.mp hp
        exact Bool.eq_false_of_not_eq_true htop

theorem Proper.insert (hs : s.Proper) (x : Binary64) : (s.insert x).Proper := by
  unfold ExactSum.insert
  split
  · exact hs.addFinite x
  · exact hs.addSpecial (Bool.eq_false_of_not_eq_true ‹_›)

theorem Proper.foldl_insert (hs : s.Proper) (xs : List Binary64) :
    (xs.foldl ExactSum.insert s).Proper := by
  induction xs generalizing s with
  | nil => exact hs
  | cons x xs ih => exact ih (hs.insert x)

/-! ## A zero among the numbers -/

/-- A zero and a number that is not zero add up to that number.  Nothing is lost if the number
is finite. -/
theorem twoSum_of_isZero (hx : x.isZero = true) (hy : y.isZero = false) :
    (twoSum x y).1 = y ∧
      if y.isFinite then (twoSum x y).2.isZero = true else (twoSum x y).2 = .nan := by
  obtain ⟨t, rfl⟩ := exists_of_isZero hx
  cases hfinite : y.isFinite with
  | true =>
      have hyunits : y.units ≠ 0 := fun h0 => by
        rw [(isZero_iff hfinite).mpr h0] at hy
        exact absurd hy (by decide)
      have hlt : (Binary64.finite t .zero).abs.numericLt y.abs = true := by
        rw [abs_numericLt_abs rfl hfinite, (isZero_iff rfl).mp hx]
        exact decide_eq_true (by omega)
      have htwo : twoSum (.finite t .zero) y = (y, .finite t .zero - (y - y)) := by
        simp only [twoSum, if_pos hlt, add_of_isZero hx hy]
      rw [htwo, if_pos rfl]
      refine ⟨rfl, ?_⟩
      rcases twoSum_cases (x := .finite t .zero) rfl hfinite with ⟨-, -, hlow, hsum⟩ | ⟨u, hinf⟩
      · rw [htwo] at hlow hsum
        rw [(isZero_iff rfl).mp hx] at hsum
        exact (isZero_iff hlow).mpr (by dsimp only at hsum ⊢; omega)
      · obtain rfl := (Prod.ext_iff.mp (htwo.symm.trans hinf)).1
        simp [isFinite] at hfinite
  | false =>
      cases y with
      | nan => exact ⟨rfl, rfl⟩
      | infinity u => cases t <;> cases u <;> exact ⟨rfl, rfl⟩
      | finite u m => simp [isFinite] at hfinite

/-- A zero is lost at the first partial that it meets. -/
theorem carry_of_isZero (hx : x.isZero = true) (hy : y.isZero = false) :
    carry x (y :: ps) =
      (if y.isFinite then (carry y ps).1 else .nan :: (carry y ps).1, (carry y ps).2) := by
  obtain ⟨hhigh, hlow⟩ := twoSum_of_isZero hx hy
  simp only [carry, hhigh]
  cases hfinite : y.isFinite with
  | true =>
      rw [hfinite, if_pos rfl] at hlow
      simp [hlow]
  | false =>
      rw [hfinite, if_neg Bool.false_ne_true] at hlow
      simp [hlow, isZero]

/-- The sign of a zero makes no difference to a running sum. -/
theorem Proper.insert_of_isZero (hs : s.Proper) (hx : x.isZero = true) (hx' : x'.isZero = true) :
    s.insert x = s.insert x' := by
  have hfinite : ∀ {z : Binary64}, z.isZero = true → s.insert z = s.addFinite z := by
    intro z hz
    obtain ⟨t, rfl⟩ := exists_of_isZero hz
    rfl
  rw [hfinite hx, hfinite hx']
  cases hps : s.partials with
  | nil =>
      obtain ⟨t, rfl⟩ := exists_of_isZero hx
      obtain ⟨u, rfl⟩ := exists_of_isZero hx'
      simp [ExactSum.addFinite, hps, carry, isFinite, isZero, Magnitude.zero]
  | cons p ps =>
      have hp : p.isZero = false := hs.partials p (hps ▸ List.mem_cons_self)
      simp only [ExactSum.addFinite, hps, carry_of_isZero hx hp, carry_of_isZero hx' hp]

theorem Proper.insert_plain (hs : s.Proper) (x : Binary64) : s.insert x.plain = s.insert x := by
  cases hx : x.isZero with
  | true => exact hs.insert_of_isZero (by simpa using hx) hx
  | false => rw [plain_of_not_isZero hx]

theorem Proper.foldl_insert_plain (hs : s.Proper) (xs : List Binary64) :
    (xs.map plain).foldl ExactSum.insert s = xs.foldl ExactSum.insert s := by
  induction xs generalizing s with
  | nil => rfl
  | cons x xs ih =>
      rw [List.map_cons, List.foldl_cons, List.foldl_cons, hs.insert_plain]
      exact ih (hs.insert x)

/-! ## The sum -/

theorem settle_ne_negativeZero {high : Binary64} (h : high ≠ negativeZero) (low : Binary64)
    (next : Option Binary64) : settle high low next ≠ negativeZero := by
  have hmoved : ∀ z, high + z ≠ negativeZero := fun z hz => h (add_eq_negativeZero hz).1
  unfold settle
  split
  · exact h
  · split
    · dsimp only
      split
      · exact hmoved _
      · exact h
    · exact h

theorem collapse_ne_negativeZero {high : Binary64} (h : high ≠ negativeZero)
    (ps : List Binary64) : collapse high ps ≠ negativeZero := by
  induction ps generalizing high with
  | nil => exact h
  | cons y ys ih =>
      have hsum : high + y ≠ negativeZero := fun hz => h (add_eq_negativeZero hz).1
      simp only [collapse]
      split
      · exact ih hsum
      · exact settle_ne_negativeZero hsum _ _

theorem roundPartials_ne_negativeZero (h : ∀ p ∈ ps, p.isZero = false) :
    roundPartials ps ≠ negativeZero := by
  unfold roundPartials
  split
  · decide
  · rename_i top lower hreverse
    have hmem : top ∈ ps.reverse := hreverse ▸ List.mem_cons_self
    have htop : top.isZero = false := h top (List.mem_reverse.mp hmem)
    refine collapse_ne_negativeZero (fun heq => ?_) lower
    rw [heq] at htop
    exact absurd htop (by decide)

theorem Proper.toBinary64_ne_negativeZero (hs : s.Proper) : s.toBinary64 ≠ negativeZero := by
  unfold toBinary64
  cases hspecial : s.special with
  | none => exact roundPartials_ne_negativeZero hs.partials
  | some v =>
      rintro rfl
      exact absurd (hs.special _ hspecial) (by decide)

end MetricFormula.ExactSum

namespace MetricFormula

open ExactSum Binary64

/-- A sum does not depend on the signs of zeros. -/
theorem exactSum_plain (xs : List Binary64) : exactSum (xs.map plain) = exactSum xs :=
  congrArg toBinary64 (proper_empty.foldl_insert_plain xs)

/-- A sum is not the negative zero. -/
theorem exactSum_ne_negativeZero (xs : List Binary64) : exactSum xs ≠ negativeZero :=
  (proper_empty.foldl_insert xs).toBinary64_ne_negativeZero

end MetricFormula
