/-
  Proofs/Division: zeros among the divisors of a term.

  Evaluation looks for zeros in the product of what divides in a term.  A zero among the
  factors shows in the product, and ends in a fault, unless the product is not a number
  there: then the product of the factors before the zero is not finite, or one of those
  after it is not, and the value of the term is not a number either.  That is all that can
  happen in an evaluation that has a value (`evaluate_divisors`), and it does happen
  (`evaluate_zero_divisor`).  Over columns it holds index by index, where all the factors
  have a sample.
-/
import MetricFormula.Proofs.Interpretation.Term
import MetricFormula.Proofs.Series.Sampling
import Mathlib.Control.Monad.Basic

set_option autoImplicit false

namespace MetricFormula

open MetricFormula.Grammar

namespace Evaluation

variable {σ : Type} [Series σ] {bindings : Bindings σ}

/-- The series of the factors that divide in a term. -/
def divisors (bindings : Bindings σ) : TermTree → Except Fault (List σ)
  | .mk _ _ steps => do
      let steps ← ((Interpretation.evaluation bindings).walkTermSteps steps).outcome
      resolveAll bindings (Interpretation.divided steps)

/-- A quotient that has a value, at each index at which all divisors have a number. -/
theorem quotient_divides (S : Sampling σ) {numerator denominator : List (Operand σ)} {span : Span}
    {x : σ} (h : quotient bindings numerator denominator span = .ok x) :
    ∃ ds, resolveAll bindings denominator = .ok ds ∧
      ∀ i, (∃ d ∈ ds, S.get? d i = none) ∨
        ∃ ws : List Binary64, ds.map (S.get? · i) = ws.map some ∧
          Binary64.Divides ws (S.get? x i) := by
  obtain ⟨xs, -, h⟩ := bind_eq_ok.mp h
  obtain ⟨dividend, -, h⟩ := bind_eq_ok.mp h
  by_cases hempty : denominator.isEmpty = true
  · rw [List.isEmpty_iff.mp hempty]
    exact ⟨[], rfl, fun i => Or.inr ⟨[], rfl, Binary64.divides_one⟩⟩
  · rw [if_neg hempty] at h
    obtain ⟨ds, hds, h⟩ := bind_eq_ok.mp h
    obtain ⟨divisor, hproduct, h⟩ := bind_eq_ok.mp h
    split at h
    · simp at h
    · rename_i hzero
      refine ⟨ds, hds, fun i => ?_⟩
      rcases S.product (lift_eq_ok.mp hproduct) i with hnone | ⟨ws, hws, hdivisor⟩
      · exact Or.inl hnone
      · have hquotient : S.get? x i = (S.get? dividend i).map (· / Binary64.product ws) := by
          rw [S.div (lift_eq_ok.mp h) i, hdivisor]
          cases S.get? dividend i <;> rfl
        rw [hquotient]
        exact Or.inr ⟨ws, hws, Binary64.divides_of_product
          (S.isZero (Bool.eq_false_iff.mpr hzero) i _ hdivisor)⟩

/-- Every term of a tree that has a value. -/
theorem walk_divides (S : Sampling σ) {t : ExpressionTree} {v : σ}
    (h : ((Interpretation.evaluation bindings).walk t).outcome = .ok v) :
    ∀ u ∈ t.terms, ∃ ds x, divisors bindings u = .ok ds ∧
      ((Interpretation.evaluation bindings).walkTerm u).outcome = .ok x ∧
      ∀ i, (∃ d ∈ ds, S.get? d i = none) ∨
        ∃ ws : List Binary64, ds.map (S.get? · i) = ws.map some ∧
          Binary64.Divides ws (S.get? x i) := by
  intro u hu
  obtain ⟨x, hx⟩ := Interpretation.walk_terms h u hu
  obtain ⟨span, first, steps⟩ := u
  obtain ⟨a, -, hrest⟩ := Handled.outcome_bind_eq_ok.mp hx
  obtain ⟨as, hsteps, hterm⟩ := Handled.outcome_bind_eq_ok.mp hrest
  obtain ⟨ds, hds, hdivides⟩ := quotient_divides S hterm
  refine ⟨ds, x, ?_, hx, hdivides⟩
  rw [divisors, hsteps]
  exact hds

end Evaluation

/-! ## Texts -/

/-- In an evaluation that has a value, the divisors of no term multiply to zero.  One of them
is zero only if the product of those before it or one of those after it is not finite, and
then the value of the term is not a number.  Over columns it is so at every index at which
each divisor has a sample. -/
theorem evaluate_divisors (p : Policy) (source : String) :
    (∀ (bindings : Bindings Binary64) (v : Binary64), p.evaluate source bindings = .ok v →
      ∃ t, Interpretation.parse p.maxDepth source = .ok t ∧
        ∀ u ∈ t.terms, ∃ ds x, Evaluation.divisors bindings u = .ok ds ∧
          ((Interpretation.evaluation bindings).walkTerm u).outcome = .ok x ∧
          Binary64.Divides ds (some x)) ∧
    ∀ (bindings : Bindings Column) (v : Column), p.evaluate source bindings = .ok v →
      ∃ t, Interpretation.parse p.maxDepth source = .ok t ∧
        ∀ u ∈ t.terms, ∃ ds x, Evaluation.divisors bindings u = .ok ds ∧
          ((Interpretation.evaluation bindings).walkTerm u).outcome = .ok x ∧
          ∀ i, (∃ d ∈ ds, d.get? i = none) ∨
            ∃ ws : List Binary64, ds.map (·.get? i) = ws.map some ∧
              Binary64.Divides ws (x.get? i) := by
  constructor
  · intro bindings v h
    rw [Policy.evaluate_eq] at h
    obtain ⟨t, ht, hwalk⟩ := bind_eq_ok.mp h
    refine ⟨t, ht, fun u hu => ?_⟩
    obtain ⟨ds, x, hds, hx, hdivides⟩ := Evaluation.walk_divides .number hwalk u hu
    refine ⟨ds, x, hds, hx, ?_⟩
    rcases hdivides 0 with ⟨d, -, hnone⟩ | ⟨ws, hws, hdivides⟩
    · simp [Sampling.number] at hnone
    · obtain rfl : ds = ws := (List.map_inj_right fun _ _ => Option.some.inj).mp hws
      exact hdivides
  · intro bindings v h
    rw [Policy.evaluate_eq] at h
    obtain ⟨t, ht, hwalk⟩ := bind_eq_ok.mp h
    exact ⟨t, ht, Evaluation.walk_divides .column hwalk⟩

/-- A term whose divisors overflow before the zero among them. -/
def overflowBeforeZero : String := "1 / 1e308 / 1e308 / 0"

/-- No series for any name but one, which is not finite at any index. -/
def boundlessBindings : Bindings Column
  | "x" => some (.values [.infinity false, .nan])
  | _ => none

theorem evaluate_overflowBeforeZero :
    Policy.standard.evaluate overflowBeforeZero (fun _ => none : Bindings Binary64) =
      .ok .nan := by
  decide +kernel

theorem evaluate_divisors_overflow :
    (Policy.standard.evaluate overflowBeforeZero (fun _ => none : Bindings Binary64) = .ok .nan ∧
      ∃ t, Interpretation.parse Policy.standard.maxDepth overflowBeforeZero = .ok t ∧
        ∀ u ∈ t.terms, ∃ ds,
          Evaluation.divisors (fun _ => none : Bindings Binary64) u = .ok ds ∧
            (Binary64.product ds).isZero = false) ∧
    Policy.standard.evaluate "1 / x / 0" boundlessBindings = .ok (.values [.nan, .nan]) ∧
      ∃ t, Interpretation.parse Policy.standard.maxDepth "1 / x / 0" = .ok t ∧
        ∀ u ∈ t.terms, ∃ ds, Evaluation.divisors boundlessBindings u = .ok ds ∧
          ∀ i, (∃ d ∈ ds, d.get? i = none) ∨
            ∃ ws : List Binary64, ds.map (·.get? i) = ws.map some ∧
              (Binary64.product ws).isZero = false := by
  have hcolumn : Policy.standard.evaluate "1 / x / 0" boundlessBindings =
      .ok (.values [.nan, .nan]) := by decide +kernel
  obtain ⟨t, ht, hnumbers⟩ := (evaluate_divisors .standard overflowBeforeZero).1 _ _
    evaluate_overflowBeforeZero
  obtain ⟨t', ht', hcolumns⟩ := (evaluate_divisors .standard "1 / x / 0").2 _ _ hcolumn
  refine ⟨⟨evaluate_overflowBeforeZero, t, ht, fun u hu => ?_⟩, hcolumn, t', ht', fun u hu => ?_⟩
  · obtain ⟨ds, x, hds, -, hdivides⟩ := hnumbers u hu
    exact ⟨ds, hds, hdivides.product⟩
  · obtain ⟨ds, x, hds, -, hdivides⟩ := hcolumns u hu
    refine ⟨ds, hds, fun i => (hdivides i).imp_right ?_⟩
    rintro ⟨ws, hws, hdivides⟩
    exact ⟨ws, hws, hdivides.product⟩

/-- A zero among the divisors of a text's only term. -/
theorem Evaluation.exists_zero_divisor {σ : Type} [Series σ] {bindings : Bindings σ}
    {maxDepth : Nat} {source : String}
    (h : (Interpretation.parse maxDepth source).map (fun t => t.terms.map fun u =>
      (divisors bindings u).map (·.any Series.containsZero)) = .ok [.ok true]) :
    ∃ t, Interpretation.parse maxDepth source = .ok t ∧
      ∃ u ∈ t.terms, ∃ ds, divisors bindings u = .ok ds ∧
        ∃ d ∈ ds, Series.containsZero d = true := by
  cases ht : Interpretation.parse maxDepth source with
  | error e => simp [ht, Except.map] at h
  | ok t =>
      rw [ht] at h
      obtain ⟨u, hterms, hu⟩ := List.map_eq_singleton_iff.mp (Except.ok.inj h)
      refine ⟨t, rfl, u, by simp [hterms], ?_⟩
      cases hds : divisors bindings u with
      | error e => simp [hds, Except.map] at hu
      | ok ds =>
          rw [hds] at hu
          exact ⟨ds, rfl, List.any_eq_true.mp (Except.ok.inj hu)⟩

/-- An empty series for one name. -/
def emptyBindings : Bindings Column
  | "x" => some (.values [])
  | _ => none

/-- A divisor can be zero in an evaluation that has a value: the product of the divisors may
be lost before the zero, and there may be no index at which to multiply. -/
theorem evaluate_zero_divisor :
    (Policy.standard.evaluate overflowBeforeZero (fun _ => none : Bindings Binary64) = .ok .nan ∧
      ∃ t, Interpretation.parse Policy.standard.maxDepth overflowBeforeZero = .ok t ∧
        ∃ u ∈ t.terms, ∃ ds,
          Evaluation.divisors (fun _ => none : Bindings Binary64) u = .ok ds ∧
            ∃ d ∈ ds, d.isZero = true) ∧
    Policy.standard.evaluate "1 / x / 0" emptyBindings = .ok (.values []) ∧
      ∃ t, Interpretation.parse Policy.standard.maxDepth "1 / x / 0" = .ok t ∧
        ∃ u ∈ t.terms, ∃ ds, Evaluation.divisors emptyBindings u = .ok ds ∧
          ∃ d ∈ ds, d.containsZero = true :=
  ⟨⟨evaluate_overflowBeforeZero, Evaluation.exists_zero_divisor (by decide +kernel)⟩,
    by decide +kernel, Evaluation.exists_zero_divisor (by decide +kernel)⟩

end MetricFormula
