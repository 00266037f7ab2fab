/-
  Proofs/ExactSum/Special: the sum of what is not finite.

  Infinities and NaN are added up apart from the finite numbers.  The order does not
  matter (`foldl_absorb_perm`): the sum is NaN if there is a NaN or both infinities
  occur, and otherwise the one infinity that does (`specialSum_of_nan_mem`,
  `specialSum_of_infinity_mem`).
-/
import MetricFormula.Proofs.Binary64.Arithmetic
import MetricFormula.Series.ExactSum

set_option autoImplicit false

namespace MetricFormula.ExactSum

open Binary64

/-! ## One number -/

/-- Adds a number to the sum of what is not finite, if it is not finite. -/
def absorb (special : Option Binary64) (x : Binary64) : Option Binary64 :=
  if x.isFinite then special else some (special.getD .zero + x)

theorem absorb_of_isFinite {x : Binary64} (hx : x.isFinite = true) (special : Option Binary64) :
    absorb special x = special := if_pos hx

theorem add_right_comm_of_not_isFinite {x y : Binary64} (hx : x.isFinite = false)
    (hy : y.isFinite = false) (v : Binary64) : v + x + y = v + y + x := by
  cases x with
  | finite s m => simp [isFinite] at hx
  | nan => simp
  | infinity s =>
      cases y with
      | finite t n => simp [isFinite] at hy
      | nan => simp
      | infinity t =>
          cases v with
          | nan => simp
          | finite u m => cases s <;> cases t <;> rfl
          | infinity u => cases s <;> cases t <;> cases u <;> rfl

theorem absorb_right_comm (special : Option Binary64) (x y : Binary64) :
    absorb (absorb special x) y = absorb (absorb special y) x := by
  unfold absorb
  by_cases hx : x.isFinite = true
  · simp [hx]
  · by_cases hy : y.isFinite = true
    · simp [hy]
    · rw [Bool.not_eq_true] at hx hy
      simp [hx, hy, add_right_comm_of_not_isFinite hx hy]

/-! ## A list of numbers -/

/-- The sum of what is not finite does not depend on the order. -/
theorem foldl_absorb_perm {xs ys : List Binary64} (h : xs.Perm ys) (special : Option Binary64) :
    xs.foldl absorb special = ys.foldl absorb special := by
  apply h.foldl_eq'
  intro x _ y _ s
  exact absorb_right_comm s x y

theorem foldl_absorb_absorb (special : Option Binary64) (x : Binary64) (xs : List Binary64) :
    xs.foldl absorb (absorb special x) = absorb (xs.foldl absorb special) x := by
  have h := foldl_absorb_perm (List.perm_append_singleton x xs).symm special
  rwa [List.foldl_cons, List.foldl_append, List.foldl_cons, List.foldl_nil] at h

theorem foldl_absorb_of_isFinite {xs : List Binary64} (h : ∀ x ∈ xs, x.isFinite = true)
    (special : Option Binary64) : xs.foldl absorb special = special := by
  induction xs with
  | nil => rfl
  | cons x xs ih =>
      rw [List.foldl_cons, absorb_of_isFinite (h x List.mem_cons_self)]
      exact ih fun y hy => h y (List.mem_cons_of_mem x hy)

theorem foldl_absorb_nan (xs : List Binary64) : xs.foldl absorb (some .nan) = some .nan := by
  induction xs with
  | nil => rfl
  | cons x xs ih =>
      have hstep : absorb (some .nan) x = some .nan := by
        unfold absorb
        split <;> simp
      rw [List.foldl_cons, hstep, ih]

/-- From an infinity on, the sum of what is not finite stays that infinity unless NaN
or the other infinity occurs. -/
theorem foldl_absorb_infinity (s : Bool) (xs : List Binary64) :
    xs.foldl absorb (some (.infinity s)) =
      if .nan ∈ xs ∨ .infinity (!s) ∈ xs then some .nan else some (.infinity s) := by
  induction xs with
  | nil => simp
  | cons x xs ih =>
      rw [List.foldl_cons]
      cases x with
      | finite t m =>
          rw [absorb_of_isFinite rfl, ih]
          simp
      | nan =>
          rw [show absorb (some (.infinity s)) .nan = some .nan from rfl, foldl_absorb_nan]
          simp
      | infinity t =>
          by_cases hst : s = t
          · subst hst
            have hstep : absorb (some (.infinity s)) (.infinity s) = some (.infinity s) := by
              cases s <;> rfl
            rw [hstep, ih]
            simp
          · have hts : t = !s := by
              cases s <;> cases t <;> simp at hst ⊢
            subst hts
            have hstep : absorb (some (.infinity s)) (.infinity !s) = some .nan := by
              cases s <;> rfl
            rw [hstep, foldl_absorb_nan]
            simp

/-- The sum of what is not finite among numbers. -/
def specialSum (xs : List Binary64) : Option Binary64 := xs.foldl absorb none

theorem specialSum_of_isFinite {xs : List Binary64} (h : ∀ x ∈ xs, x.isFinite = true) :
    specialSum xs = none := foldl_absorb_of_isFinite h none

theorem absorb_none_of_not_isFinite {x : Binary64} (hx : x.isFinite = false) :
    absorb none x = some x := by
  cases x with
  | nan => rfl
  | infinity s => rfl
  | finite s m => simp [isFinite] at hx

/-- Where something is not finite, the sum may as well start there. -/
theorem specialSum_of_mem {xs : List Binary64} {x : Binary64} (hmem : x ∈ xs)
    (hx : x.isFinite = false) : specialSum xs = (xs.erase x).foldl absorb (some x) := by
  unfold specialSum
  rw [foldl_absorb_perm (List.perm_cons_erase hmem), List.foldl_cons,
    absorb_none_of_not_isFinite hx]

theorem specialSum_of_nan_mem {xs : List Binary64} (h : .nan ∈ xs) :
    specialSum xs = some .nan := by
  rw [specialSum_of_mem h rfl, foldl_absorb_nan]

theorem specialSum_of_infinity_mem {xs : List Binary64} {s : Bool} (h : .infinity s ∈ xs)
    (hnan : .nan ∉ xs) :
    specialSum xs = if .infinity (!s) ∈ xs then some .nan else some (.infinity s) := by
  rw [specialSum_of_mem h rfl, foldl_absorb_infinity]
  have hne : ∀ y : Binary64, y ≠ .infinity s → (y ∈ xs.erase (.infinity s) ↔ y ∈ xs) :=
    fun y hy => List.mem_erase_of_ne hy
  have hother := hne (.infinity !s) (by cases s <;> simp)
  have hnan' := hne .nan (by simp)
  simp only [hother, hnan', hnan, false_or]

end MetricFormula.ExactSum
