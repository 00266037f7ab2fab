/-
  Proofs/ExactSum/Unbounded: which sums are NaN, and which are infinite.

  Without an overflow on the way, a sum is NaN if NaN or both infinities are among the
  numbers, and infinite if one infinity is.  An overflow with the last finite number
  counts as one more infinity, and an earlier one makes the sum NaN
  (`exactSum_unbounded_iff`).  So an infinity can be lost, and finite numbers can have the
  sum NaN (`exactSum_infinity_lost`).
-/
import MetricFormula.Proofs.ExactSum.Order

set_option autoImplicit false

namespace MetricFormula

open Binary64

namespace ExactSum

variable {xs : List Binary64} {o : Overflow}

/-! ## What is not finite -/

/-- All numbers are finite, or NaN or both infinities are among them, or one infinity
is; and what is not finite sums up accordingly. -/
theorem specialSum_cases (xs : List Binary64) :
    (specialSum xs = none ∧ ∀ x ∈ xs, x.isFinite = true) ∨
      (specialSum xs = some .nan ∧
        (.nan ∈ xs ∨ (.infinity true ∈ xs ∧ .infinity false ∈ xs))) ∨
      ∃ s : Bool, specialSum xs = some (.infinity s) ∧ .infinity s ∈ xs ∧ .nan ∉ xs ∧
        .infinity (!s) ∉ xs := by
  by_cases hall : ∀ x ∈ xs, x.isFinite = true
  · exact Or.inl ⟨specialSum_of_isFinite hall, hall⟩
  by_cases hnan : .nan ∈ xs
  · exact Or.inr (Or.inl ⟨specialSum_of_nan_mem hnan, Or.inl hnan⟩)
  obtain ⟨s, hs⟩ := exists_infinity_mem hnan hall
  have hsum := specialSum_of_infinity_mem hs hnan
  by_cases hother : .infinity (!s) ∈ xs
  · rw [if_pos hother] at hsum
    refine Or.inr (Or.inl ⟨hsum, Or.inr ?_⟩)
    cases s with
    | false => exact ⟨hother, hs⟩
    | true => exact ⟨hs, hother⟩
  · rw [if_neg hother] at hsum
    exact Or.inr (Or.inr ⟨s, hsum, hs, hnan, hother⟩)

theorem nan_not_mem (hall : ∀ x ∈ xs, x.isFinite = true) : .nan ∉ xs := by
  intro h
  have := hall _ h
  simp [isFinite] at this

theorem not_both_infinities {s : Bool} (h : .infinity (!s) ∉ xs) :
    ¬(.infinity true ∈ xs ∧ .infinity false ∈ xs) := by
  cases s with
  | false => exact fun hboth => h hboth.1
  | true => exact fun hboth => h hboth.2

/-! ## By where the finite numbers overflow -/

/-- An overflow spoils an infinity if a finite number follows it, or if it goes to the
other side. -/
theorem not_keeps_iff {s : Bool} : ¬o.Keeps s ↔ o = .early ∨ o = .last !s := by
  cases o with
  | never => simp [Overflow.Keeps]
  | last t => cases s <;> cases t <;> simp [Overflow.Keeps]
  | early => simp [Overflow.Keeps]

theorem keeps_iff {s : Bool} : o.Keeps s ↔ o = .never ∨ o = .last s := by
  cases o with
  | never => simp [Overflow.Keeps]
  | last t => simp [Overflow.Keeps]
  | early => simp [Overflow.Keeps]

/-- The sum of finite numbers is an infinity or NaN only by an overflow. -/
theorem result_none_cases {exact : Int}
    (hnever : o = .never → (ofUnits false exact).isFinite = true) :
    (o = .never ∧ (o.result none exact).isFinite = true) ∨
      (∃ t : Bool, o = .last t ∧ o.result none exact = .infinity t) ∨
        (o = .early ∧ o.result none exact = .nan) := by
  cases o with
  | never => exact Or.inl ⟨rfl, hnever rfl⟩
  | last t => exact Or.inr (Or.inl ⟨t, rfl, rfl⟩)
  | early => exact Or.inr (Or.inr ⟨rfl, rfl⟩)

section Result

variable (hnever : (∀ x ∈ xs, x.isFinite = true) → o = .never →
  (ofUnits false (total xs)).isFinite = true)
include hnever

/-- The sum is NaN because of what is not finite, because a finite number followed an
overflow, or because an overflow met the opposite infinity. -/
theorem result_eq_nan_iff :
    o.result (specialSum xs) (total xs) = .nan ↔
      .nan ∈ xs ∨ (.infinity true ∈ xs ∧ .infinity false ∈ xs) ∨ o = .early ∨
        ∃ t : Bool, o = .last t ∧ .infinity (!t) ∈ xs := by
  rcases specialSum_cases xs with ⟨hsum, hall⟩ | ⟨hsum, hmem⟩ | ⟨s, hsum, hs, hnan, hother⟩
  · have hinf := infinity_not_mem hall
    rw [hsum]
    rcases result_none_cases (hnever hall) with ⟨rfl, hfin⟩ | ⟨t, rfl, hr⟩ | ⟨rfl, hr⟩
    · have hne : Overflow.never.result none (total xs) ≠ .nan := by
        intro h
        rw [h] at hfin
        simp [isFinite] at hfin
      simp [hne, nan_not_mem hall, hinf]
    · simp [hr, nan_not_mem hall, hinf]
    · simp [hr]
  · rw [hsum, result_nan]
    refine iff_of_true rfl ?_
    rcases hmem with h | h
    · exact Or.inl h
    · exact Or.inr (Or.inl h)
  · rw [hsum]
    rcases result_infinity_cases s (total xs) o with ⟨hkeeps, hr⟩ | ⟨hkeeps, hr⟩
    · rcases keeps_iff.mp hkeeps with rfl | rfl
      · simp [hr, hnan, not_both_infinities hother]
      · simp [hr, hnan, not_both_infinities hother, hother]
    · rcases not_keeps_iff.mp hkeeps with rfl | rfl
      · simp [hr]
      · refine iff_of_true hr (Or.inr (Or.inr (Or.inr ⟨!s, rfl, ?_⟩)))
        rwa [Bool.not_not]

/-- The sum is an infinity because the last finite number overflowed to it, or because
it is among numbers that do not overflow; and nothing else is not finite. -/
theorem result_eq_infinity_iff (s : Bool) :
    o.result (specialSum xs) (total xs) = .infinity s ↔
      .nan ∉ xs ∧ .infinity (!s) ∉ xs ∧ (o = .last s ∨ o = .never ∧ .infinity s ∈ xs) := by
  rcases specialSum_cases xs with ⟨hsum, hall⟩ | ⟨hsum, hmem⟩ | ⟨u, hsum, hu, hnan, hother⟩
  · have hinf := infinity_not_mem hall
    rw [hsum]
    rcases result_none_cases (hnever hall) with ⟨rfl, hfin⟩ | ⟨t, rfl, hr⟩ | ⟨rfl, hr⟩
    · have hne : Overflow.never.result none (total xs) ≠ .infinity s := by
        intro h
        rw [h] at hfin
        simp [isFinite] at hfin
      simp [hne, hinf]
    · simp [hr, nan_not_mem hall, hinf]
    · simp [hr]
  · rw [hsum, result_nan]
    refine iff_of_false Binary64.noConfusion ?_
    rintro ⟨hnan, hother, -⟩
    rcases hmem with h | h
    · exact hnan h
    · exact not_both_infinities hother h
  · rw [hsum]
    by_cases hus : u = s
    · subst hus
      rcases result_infinity_cases u (total xs) o with ⟨hkeeps, hr⟩ | ⟨hkeeps, hr⟩
      · have := keeps_iff.mp hkeeps
        simp [hr, hnan, hother, hu, or_comm, this]
      · rcases not_keeps_iff.mp hkeeps with rfl | rfl
        · simp [hr]
        · simp [hr]
    · -- The infinity among the numbers is the other one.
      have hsu : (!s) = u := by cases s <;> cases u <;> simp at hus ⊢
      rw [hsu]
      refine iff_of_false ?_ (fun h => h.2.1 hu)
      rcases result_infinity_cases u (total xs) o with ⟨-, hr⟩ | ⟨-, hr⟩
      · simpa [hr] using hus
      · simp [hr]

end Result

end ExactSum

/-! ## The sum -/

open ExactSum in
/-- When a sum is NaN and when it is an infinity: by what is not finite among the
numbers, and by where their finite ones first overflow. -/
theorem exactSum_unbounded_iff (xs : List Binary64) :
    (exactSum xs = .nan ↔
      .nan ∈ xs ∨ (.infinity true ∈ xs ∧ .infinity false ∈ xs) ∨
        overflow .empty xs = .early ∨
          ∃ t : Bool, overflow .empty xs = .last t ∧ .infinity (!t) ∈ xs) ∧
    ∀ s : Bool, exactSum xs = .infinity s ↔
      .nan ∉ xs ∧ .infinity (!s) ∉ xs ∧
        (overflow .empty xs = .last s ∨ overflow .empty xs = .never ∧ .infinity s ∈ xs) := by
  rw [exactSum_eq_result xs]
  exact ⟨result_eq_nan_iff isFinite_of_never, result_eq_infinity_iff isFinite_of_never⟩

/-- An infinity among finite numbers can be lost: the greatest finite number twice, one,
and positive infinity. -/
theorem exactSum_infinity_lost :
    ¬∀ xs : List Binary64,
      (exactSum xs = .nan ↔ .nan ∈ xs ∨ (.infinity true ∈ xs ∧ .infinity false ∈ xs)) ∧
      ∀ s : Bool, .infinity s ∈ xs → .nan ∉ xs → .infinity (!s) ∉ xs →
        exactSum xs = .infinity s := by
  intro hall
  obtain ⟨-, hinfinity⟩ := hall [ofBits 0x7fefffffffffffff, ofBits 0x7fefffffffffffff, .one,
    .infinity false]
  exact absurd (hinfinity false (by decide +kernel) (by decide +kernel) (by decide +kernel))
    (by decide +kernel)

end MetricFormula
