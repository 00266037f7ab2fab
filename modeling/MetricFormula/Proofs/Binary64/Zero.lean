/-
  Proofs/Binary64/Zero: arithmetic and the signs of zeros.

  `plain` gives every zero the positive sign.  Products, and quotients by what is not zero, of
  numbers that are plainly the same are plainly the same (`plain_mul`, `plain_div`): a zero
  leads to zeros of some sign or to NaN, and only the division by a zero shows which zero it
  was.

  A sum is the negative zero only if both summands are (`add_eq_negativeZero`), because no sum
  that is not zero is rounded to zero.
-/
import MetricFormula.Proofs.Binary64.Arithmetic
import MetricFormula.Proofs.Binary64.Product

set_option autoImplicit false

namespace MetricFormula.Binary64

variable {x x' y y' : Binary64}

/-- The zero that is not `zero`. -/
def negativeZero : Binary64 := .finite true .zero

/-- The number, or the positive zero for either zero. -/
def plain (x : Binary64) : Binary64 := if x.isZero then zero else x

theorem plain_of_isZero (h : x.isZero = true) : x.plain = zero := if_pos h

theorem plain_of_not_isZero (h : x.isZero = false) : x.plain = x := if_neg (by simp [h])

@[simp] theorem isZero_plain (x : Binary64) : x.plain.isZero = x.isZero := by
  cases h : x.isZero with
  | true => rw [plain_of_isZero h]; rfl
  | false => rw [plain_of_not_isZero h, h]

@[simp] theorem plain_plain (x : Binary64) : x.plain.plain = x.plain := by
  cases h : x.isZero with
  | true => rw [plain_of_isZero h]; rfl
  | false => rw [plain_of_not_isZero h, plain_of_not_isZero h]

theorem isZero_eq_of_plain (h : x.plain = x'.plain) : x.isZero = x'.isZero := by
  rw [← isZero_plain x, h, isZero_plain]

/-- A zero is a finite number with no units. -/
theorem exists_of_isZero (h : x.isZero = true) : ∃ s, x = .finite s .zero := by
  cases x with
  | nan => simp [isZero] at h
  | infinity s => simp [isZero] at h
  | finite s m =>
      obtain ⟨u, hu⟩ := m
      obtain rfl : u = 0 := by simpa [isZero] using h
      exact ⟨s, rfl⟩

/-- Only the negative zero is not plain. -/
theorem plain_eq_self_iff : x.plain = x ↔ x ≠ negativeZero := by
  cases h : x.isZero with
  | true =>
      obtain ⟨s, rfl⟩ := exists_of_isZero h
      rw [plain_of_isZero h]
      cases s <;> simp [zero, negativeZero]
  | false =>
      have hne : x ≠ negativeZero := by
        rintro rfl
        exact absurd h (by decide)
      simp [plain_of_not_isZero h, hne]

/-! ## Products and quotients -/

/-- A product with a zero for a factor is not a number, or a zero itself. -/
theorem plain_zero_mul (h : x.isZero = true) :
    (x * y).plain = if y.isFinite then zero else .nan := by
  cases hy : y.isFinite with
  | true => exact plain_of_isZero (isZero_mul h hy)
  | false =>
      rw [isZero_mul_eq_nan h hy]
      rfl

/-- A product does not depend on the sign of a zero on the left, other than for its own. -/
theorem plain_mul_left (h : x.plain = x'.plain) : (x * y).plain = (x' * y).plain := by
  have hzero := isZero_eq_of_plain h
  cases hx : x.isZero with
  | true => rw [plain_zero_mul hx, plain_zero_mul (hzero ▸ hx)]
  | false =>
      rw [plain_of_not_isZero hx, plain_of_not_isZero (hzero ▸ hx)] at h
      rw [h]

/-- Products of numbers that are plainly the same are plainly the same. -/
theorem plain_mul (hx : x.plain = x'.plain) (hy : y.plain = y'.plain) :
    (x * y).plain = (x' * y').plain := by
  calc (x * y).plain = (x' * y).plain := plain_mul_left hx
    _ = (y * x').plain := by rw [Binary64.mul_comm]
    _ = (y' * x').plain := plain_mul_left hy
    _ = (x' * y').plain := by rw [Binary64.mul_comm]

/-- A zero divided by what is not zero is not a number, or a zero itself. -/
theorem plain_zero_div (hx : x.isZero = true) (hy : y.isZero = false) :
    (x / y).plain = if y = .nan then .nan else zero := by
  obtain ⟨s, rfl⟩ := exists_of_isZero hx
  cases y with
  | nan => rfl
  | infinity t => rfl
  | finite t n =>
      have hn : n.units ≠ 0 := by simpa [isZero] using hy
      have hdiv : Binary64.finite s .zero / .finite t n = .finite (s != t) .zero := by
        change (if n.units = 0 then _ else ofRatio (s != t) (0 * unitsPerOne) n.units) = _
        rw [if_neg hn, Nat.zero_mul, ofRatio_zero _ (Nat.pos_of_ne_zero hn)]
      rw [hdiv, if_neg (by simp)]
      rfl

/-- Quotients of numbers that are plainly the same are plainly the same unless a divisor is
zero. -/
theorem plain_div (hx : x.plain = x'.plain) (hy : y.plain = y'.plain) (hzero : y.isZero = false) :
    (x / y).plain = (x' / y').plain := by
  have hzero' : y'.isZero = false := by rw [← isZero_eq_of_plain hy, hzero]
  rw [plain_of_not_isZero hzero, plain_of_not_isZero hzero'] at hy
  subst hy
  have hxzero := isZero_eq_of_plain hx
  cases h : x.isZero with
  | true => rw [plain_zero_div h hzero, plain_zero_div (hxzero ▸ h) hzero]
  | false =>
      rw [plain_of_not_isZero h, plain_of_not_isZero (hxzero ▸ h)] at hx
      rw [hx]

/-! ## Sums -/

/-- Only zero is rounded to zero. -/
theorem eq_zero_of_roundUnits_eq_zero {z : Int} (h : roundUnits z = 0) : z = 0 := by
  have hone : OnGrid 1 := ⟨1, 0, by decide, rfl⟩
  by_contra hz
  have hle := le_natAbs_roundUnits_of_le hone (show (1 : Int).natAbs ≤ z.natAbs by omega)
  rw [h] at hle
  simp at hle

/-- A finite sum has finite summands. -/
theorem isFinite_of_add (h : (x + y).isFinite = true) : x.isFinite = true ∧ y.isFinite = true := by
  cases x with
  | nan => simp [isFinite] at h
  | infinity s =>
      cases y with
      | nan => simp [isFinite] at h
      | infinity t => cases s <;> cases t <;> exact absurd h (by decide)
      | finite t n =>
          rw [infinity_add rfl] at h
          simp [isFinite] at h
  | finite s m =>
      cases y with
      | nan => simp [isFinite] at h
      | infinity t =>
          rw [add_infinity rfl] at h
          simp [isFinite] at h
      | finite t n => exact ⟨rfl, rfl⟩

/-- A sum is the negative zero only if both summands are. -/
theorem add_eq_negativeZero (h : x + y = negativeZero) : x = negativeZero ∧ y = negativeZero := by
  obtain ⟨hx, hy⟩ := isFinite_of_add (by rw [h]; rfl)
  have hround : roundUnits (x.units + y.units) = 0 := by
    rcases add_cases hx hy with ⟨-, hunits⟩ | ⟨hinfinity, -⟩
    · rw [← hunits, h]
      rfl
    · exact absurd (h.symm.trans hinfinity) (by simp [negativeZero])
  have hsum := eq_zero_of_roundUnits_eq_zero hround
  cases x with
  | nan => simp [isFinite] at hx
  | infinity s => simp [isFinite] at hx
  | finite s m =>
      cases y with
      | nan => simp [isFinite] at hy
      | infinity t => simp [isFinite] at hy
      | finite t n =>
          -- The exact sum is zero, so its sign is negative only if both signs are.
          have hsign : ofUnits (s && t) (signedUnits s m + signedUnits t n) = negativeZero := h
          rw [units_finite, units_finite] at hsum
          rw [hsum, ofUnits, if_pos rfl] at hsign
          obtain ⟨rfl, rfl⟩ : s = true ∧ t = true := by simpa [negativeZero] using hsign
          have hm : m.units = 0 ∧ n.units = 0 := by
            simp only [signedUnits, if_true] at hsum
            omega
          obtain ⟨u, hu⟩ := m
          obtain ⟨v, hv⟩ := n
          obtain ⟨rfl, rfl⟩ : u = 0 ∧ v = 0 := hm
          exact ⟨rfl, rfl⟩

/-- Nor is a difference unless what is subtracted from is. -/
theorem sub_eq_negativeZero (h : x - y = negativeZero) : x = negativeZero :=
  (add_eq_negativeZero h).1

/-- A zero of either sign makes no difference to a number that is not zero. -/
theorem add_of_isZero (hy : y.isZero = true) (hx : x.isZero = false) : x + y = x := by
  obtain ⟨t, rfl⟩ := exists_of_isZero hy
  have hunits : units (.finite t .zero) = 0 := by cases t <;> rfl
  cases x with
  | nan => rfl
  | infinity s => rfl
  | finite s m =>
      have hgrid : OnGrid (units (.finite s m) + units (.finite t .zero)) := by
        rw [hunits, add_zero]
        exact onGrid_units _
      have hlt : (units (.finite s m) + units (.finite t .zero)).natAbs < limit := by
        rw [hunits, add_zero]
        exact natAbs_units_lt _
      obtain ⟨hfinite, hsum⟩ :=
        add_exact (x := .finite s m) (y := .finite t .zero) rfl rfl hgrid hlt
      rw [hunits, add_zero] at hsum
      have hne : units (.finite s m) ≠ 0 := fun h0 => by
        rw [(isZero_iff rfl).mpr h0] at hx
        exact absurd hx (by decide)
      exact eq_of_units_eq hfinite rfl hsum (hsum ▸ hne)

end MetricFormula.Binary64
