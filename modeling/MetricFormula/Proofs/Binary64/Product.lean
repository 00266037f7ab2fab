/-
  Proofs/Binary64/Product: what becomes of a zero in a product.

  A product is formed from left to right.  A zero keeps it at zero as long as only finite
  numbers follow; where the product before the zero or a number after it is not finite, the
  product is not a number from there on.  So a product can have a zero among its factors
  without being zero, and is then not a number (`product_of_isZero`).
-/
import MetricFormula.Binary64.Basic

set_option autoImplicit false

namespace MetricFormula.Binary64

variable {x y z : Binary64} {xs ys : List Binary64}

/-! ## Two factors -/

@[simp] theorem nan_mul (x : Binary64) : Binary64.nan * x = .nan := by
  cases x <;> rfl

@[simp] theorem div_nan (x : Binary64) : x / Binary64.nan = .nan := by
  cases x <;> rfl

protected theorem mul_comm (x y : Binary64) : x * y = y * x := by
  have hsign : ∀ s t : Bool, (s != t) = (t != s) := by decide
  change mul x y = mul y x
  cases x <;> cases y <;> simp only [mul, hsign, Nat.mul_comm]

/-- Rounding keeps zero. -/
theorem ofRatio_zero (s : Bool) {den : Nat} (hden : 0 < den) :
    ofRatio s 0 den = .finite s .zero := by
  have hzero : Magnitude.ofRatio? (Magnitude.zero.units * den) den = some .zero :=
    Magnitude.ofRatio?_mul .zero hden
  rw [show Magnitude.zero.units = 0 from rfl, Nat.zero_mul] at hzero
  rw [ofRatio, hzero]

theorem isZero_mul (hx : x.isZero = true) (hy : y.isFinite = true) : (x * y).isZero = true := by
  cases x with
  | nan => simp [isZero] at hx
  | infinity s => simp [isZero] at hx
  | finite s a =>
      cases y with
      | nan => simp [isFinite] at hy
      | infinity t => simp [isFinite] at hy
      | finite t b =>
          have ha : a.units = 0 := by simpa [isZero] using hx
          change (ofRatio (s != t) (a.units * b.units) unitsPerOne).isZero = true
          rw [ha, Nat.zero_mul, ofRatio_zero _ unitsPerOne_pos]
          rfl

theorem isZero_mul_eq_nan (hx : x.isZero = true) (hy : y.isFinite = false) : x * y = .nan := by
  cases x with
  | nan => rfl
  | infinity s => simp [isZero] at hx
  | finite s a =>
      cases y with
      | nan => rfl
      | finite t b => simp [isFinite] at hy
      | infinity t => exact if_pos (by simpa [isZero] using hx)

/-! ## Any number of factors -/

/-- The product of numbers, from one and left to right. -/
def product (xs : List Binary64) : Binary64 := xs.foldl (· * ·) one

theorem foldl_nan_mul (xs : List Binary64) : xs.foldl (· * ·) .nan = Binary64.nan := by
  induction xs with
  | nil => rfl
  | cons y ys ih => rw [List.foldl_cons, nan_mul, ih]

/-- From zero on, a product that is not zero is not a number, because a factor is not finite. -/
theorem foldl_mul_of_isZero (hx : x.isZero = true) (h : (xs.foldl (· * ·) x).isZero = false) :
    xs.foldl (· * ·) x = .nan ∧ ∃ y ∈ xs, y.isFinite = false := by
  induction xs generalizing x with
  | nil => simp [hx] at h
  | cons y ys ih =>
      rw [List.foldl_cons] at h ⊢
      cases hy : y.isFinite with
      | true =>
          obtain ⟨hnan, w, hw, hfinite⟩ := ih (isZero_mul hx hy) h
          exact ⟨hnan, w, List.mem_cons_of_mem y hw, hfinite⟩
      | false =>
          rw [isZero_mul_eq_nan hx hy, foldl_nan_mul]
          exact ⟨rfl, y, List.mem_cons_self, hy⟩

/-- If the product of some numbers is not zero although one of them is, it is not a number:
what stands before the zero multiplies to no finite number, or what stands after it is not
all finite. -/
theorem product_of_isZero (hz : z.isZero = true) (h : (product (xs ++ z :: ys)).isZero = false) :
    product (xs ++ z :: ys) = .nan ∧
      ((product xs).isFinite = false ∨ ∃ y ∈ ys, y.isFinite = false) := by
  unfold product at h ⊢
  rw [List.foldl_append, List.foldl_cons] at h ⊢
  cases hxs : (xs.foldl (· * ·) one).isFinite with
  | true =>
      obtain ⟨hnan, hfinite⟩ := foldl_mul_of_isZero (Binary64.mul_comm _ _ ▸ isZero_mul hz hxs) h
      exact ⟨hnan, Or.inr hfinite⟩
  | false =>
      rw [Binary64.mul_comm, isZero_mul_eq_nan hz hxs, foldl_nan_mul]
      exact ⟨rfl, Or.inl rfl⟩

/-- What is known of a quotient by numbers that is `x?` where it has a value: their product is
not zero, and where one of them is zero all the same, the product is not a number, and
neither is the quotient. -/
structure Divides (ws : List Binary64) (x? : Option Binary64) : Prop where
  product : (Binary64.product ws).isZero = false
  zero : ∀ before z after, ws = before ++ z :: after → z.isZero = true →
    ((Binary64.product before).isFinite = false ∨ ∃ w ∈ after, w.isFinite = false) ∧
      ∀ x, x? = some x → x = .nan

theorem divides_one {x? : Option Binary64} : Divides [] x? where
  product := by decide +kernel
  zero before z after h := by simp at h

theorem divides_of_product {ws : List Binary64} {a? : Option Binary64}
    (h : (Binary64.product ws).isZero = false) : Divides ws (a?.map (· / Binary64.product ws)) where
  product := h
  zero := by
    rintro before z after rfl hz
    obtain ⟨hnan, hlost⟩ := product_of_isZero hz h
    refine ⟨hlost, fun x hx => ?_⟩
    rw [hnan] at hx
    obtain ⟨a, -, rfl⟩ := Option.map_eq_some_iff.mp hx
    exact div_nan a

end MetricFormula.Binary64
