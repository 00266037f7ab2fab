/-
  Proofs/Interpretation/Faulty: what evaluation finds wrong with a part of a formula.

  `Faulty` is what evaluation can hold against a part, the parts inside it aside: a literal that
  stands for no finite number, a call, a name without a series among the factors of a term, a
  zero in its denominator, and lengths that do not fit.  Each is said of the formula that the
  part stands for, without the order in which it is evaluated.

  A term whose factors are in order, and an expression whose terms have values, fails with such
  a fault (`faulty_of_quotient`, `walk_of_faulty`), and a part with a value has none
  (`not_faulty_of_walkTerm`).
-/
import MetricFormula.Proofs.Grammar.Part
import MetricFormula.Proofs.Interpretation.Value

set_option autoImplicit false

namespace MetricFormula

open MetricFormula.Grammar

variable {σ : Type} [Series σ]

/-! ## Mismatches in a formula -/

section Mismatches

variable (bindings : Bindings σ)

/-- Lengths that do not fit meet in a product: among the factors that multiply, among those
that divide, or where the one is divided by the other. -/
inductive Product.Mismatched : Product → LengthMismatch → Prop
  | numerator {numerator denominator : List Factor} {xs : List σ} {cause : LengthMismatch} :
      Factor.values? bindings numerator = some xs → Series.product xs = .error cause →
      Product.Mismatched (.mk numerator denominator) cause
  | denominator {numerator denominator : List Factor} {xs ys : List σ} {dividend : σ}
      {cause : LengthMismatch} :
      Factor.values? bindings numerator = some xs → Series.product xs = .ok dividend →
      Factor.values? bindings denominator = some ys → Series.product ys = .error cause →
      Product.Mismatched (.mk numerator denominator) cause
  | quotient {numerator denominator : List Factor} {xs ys : List σ} {dividend divisor : σ}
      {cause : LengthMismatch} :
      Factor.values? bindings numerator = some xs → Series.product xs = .ok dividend →
      Factor.values? bindings denominator = some ys → ys ≠ [] →
      Series.product ys = .ok divisor → Series.containsZero divisor = false →
      Series.div dividend divisor = .error cause →
      Product.Mismatched (.mk numerator denominator) cause

/-- Lengths that do not fit meet in a sum, all of whose terms have values. -/
def Sum.Mismatched : Sum → LengthMismatch → Prop
  | .mk positive negative, cause => ∃ xs ys, Product.values? bindings positive = some xs ∧
      Product.values? bindings negative = some ys ∧
      Evaluation.difference xs ys = .error (.series cause)

end Mismatches

section Values

open Evaluation

variable {bindings : Bindings σ} {xs ys : List σ} {v : σ}

theorem Evaluation.ratio?_eq_some : ratio? xs ys = some v ↔
    ∃ dividend, Series.product xs = .ok dividend ∧
      (ys = [] ∧ dividend = v ∨ ys ≠ [] ∧ ∃ divisor, Series.product ys = .ok divisor ∧
        Series.containsZero divisor = false ∧ Series.div dividend divisor = .ok v) := by
  simp only [ratio?, Option.bind_eq_bind, Option.bind_eq_some_iff, toOption_eq_some]
  refine exists_congr fun dividend => and_congr_right fun _ => ?_
  cases ys with
  | nil => simp
  | cons y ys =>
      simp only [List.isEmpty_cons, Bool.false_eq_true, if_false, Option.bind_eq_some_iff,
        toOption_eq_some, reduceCtorEq, false_and, ne_eq, not_false_eq_true, true_and, false_or]
      refine exists_congr fun divisor => and_congr_right fun _ => ?_
      by_cases hzero : Series.containsZero divisor = true
      · simp [hzero]
      · simp [hzero, toOption_eq_some]

/-- A product with a value does not divide by zero. -/
theorem Product.not_dividesByZero_of_value {p : Product} (h : p.value? bindings = some v) :
    ¬p.DividesByZero bindings := by
  obtain ⟨numerator, denominator⟩ := p
  obtain ⟨xs, ys, hxs, hys, hratio⟩ := Product.value?_eq_some.mp h
  obtain ⟨_, -, hdivisors⟩ := ratio?_eq_some.mp hratio
  rintro ⟨xs', ys', -, hys', hne, -, divisor, hproduct, hzero⟩
  obtain rfl : ys = ys' := Option.some.inj (hys.symm.trans hys')
  obtain ⟨-, divisor', hproduct', hnonzero, -⟩ := hdivisors.resolve_left fun h => hne h.1
  obtain rfl : divisor = divisor' := Except.ok.inj (hproduct.symm.trans hproduct')
  simp [hzero] at hnonzero

/-- In a product with a value all lengths fit. -/
theorem Product.not_mismatched_of_value {p : Product} {cause : LengthMismatch}
    (h : p.value? bindings = some v) : ¬p.Mismatched bindings cause := by
  obtain ⟨numerator, denominator⟩ := p
  obtain ⟨xs, ys, hxs, hys, hratio⟩ := Product.value?_eq_some.mp h
  obtain ⟨dividend, hdividend, hdivisors⟩ := ratio?_eq_some.mp hratio
  intro hmismatched
  cases hmismatched with
  | numerator hxs' hproduct =>
      obtain rfl := Option.some.inj (hxs.symm.trans hxs')
      simp [hdividend] at hproduct
  | denominator _ _ hys' hproduct =>
      obtain rfl := Option.some.inj (hys.symm.trans hys')
      rcases hdivisors with ⟨rfl, -⟩ | ⟨-, divisor, hdivisor, -⟩
      · simp [Series.product, pure, Except.pure] at hproduct
      · simp [hdivisor] at hproduct
  | quotient hxs' hdividend' hys' hne hdivisor' _ hdiv =>
      obtain rfl := Option.some.inj (hxs.symm.trans hxs')
      obtain rfl := Option.some.inj (hys.symm.trans hys')
      obtain rfl := Except.ok.inj (hdividend.symm.trans hdividend')
      obtain ⟨-, divisor, hdivisor, -, hvalue⟩ := hdivisors.resolve_left fun h => hne h.1
      obtain rfl := Except.ok.inj (hdivisor.symm.trans hdivisor')
      simp [hvalue] at hdiv

end Values

/-! ## Faulty parts -/

/-- The factor of a step. -/
def Grammar.TermStep.factor : TermStep → FactorTree
  | .mk _ _ factor => factor

/-- The factors of a term, in the order in which they stand. -/
def Grammar.TermTree.factors : TermTree → List FactorTree
  | .mk _ first steps => first :: steps.map TermStep.factor

namespace Evaluation

/-- What evaluation finds wrong with a part, the parts inside it aside.  The factors of a term
that are names are looked up where the term ends. -/
inductive Faulty (bindings : Bindings σ) : Part → Fault → Prop
  | literal {literal : Lexeme} {e : Fault} : literalValue literal.text literal.span = .error e →
      Faulty bindings (.factor (.constant literal)) e
  | call {span : Span} {name : Lexeme} {first : ExpressionTree} {others : List ExpressionTree} :
      Faulty bindings (.factor (.call span name first others)) (.unsupported .call span)
  | unbound {u : TermTree} {place : Span} {name : Lexeme} : .reference place name ∈ u.factors →
      bindings name.text = none →
      Faulty bindings (.term u) (.unboundVariable name.text name.span)
  | divisionByZero {span : Span} {first : FactorTree} {steps : List TermStep} :
      (TermTree.phrase (.mk span first steps)).product.DividesByZero bindings →
      Faulty bindings (.term (.mk span first steps)) (.divisionByZero span)
  | factors {u : TermTree} {cause : LengthMismatch} :
      u.phrase.product.Mismatched bindings cause → Faulty bindings (.term u) (.series cause)
  | terms {t : ExpressionTree} {cause : LengthMismatch} :
      t.phrase.sum.Mismatched bindings cause → Faulty bindings (.expression t) (.series cause)

/-! ## Operands -/

section Operands

omit [Series σ]

variable {bindings : Bindings σ}

theorem resolveAll_ne_series {xs : List (Operand σ)} {cause : LengthMismatch} :
    resolveAll bindings xs ≠ .error (.series cause) := by
  intro h
  rcases exists_resolveAll_or_unbound bindings xs with ⟨ys, hys⟩ | ⟨name, span, -, -, hunbound⟩
  · simp [hys] at h
  · simp [hunbound] at h

theorem bound_of_resolveAll {xs : List (Operand σ)} {ys : List σ} {name : String} {span : Span}
    (h : resolveAll bindings xs = .ok ys) (hmem : .variable name span ∈ xs) :
    bindings name ≠ none := by
  induction xs generalizing ys with
  | nil => simp at hmem
  | cons x xs ih =>
      obtain ⟨z, zs, hz, hzs, -⟩ := resolveAll_cons.mp h
      rcases List.mem_cons.mp hmem with rfl | hmem
      · intro hnone
        simp [resolve, hnone] at hz
      · exact ih hzs hmem

end Operands

/-! ## Terms and expressions -/

section Parts

open Interpretation

variable {bindings : Bindings σ}

/-- The outcomes of the factors of a term are its operands. -/
theorem outcomes_factors (span : Span) {first : FactorTree} {steps : List TermStep}
    {a : Operand σ} {as : List (MultiplicativeOperator × Operand σ)}
    (ha : ((evaluation bindings).walkFactor first).outcome = .ok a)
    (has : ((evaluation bindings).walkTermSteps steps).outcome = .ok as) :
    (TermTree.mk span first steps).factors.map
        (fun x => ((evaluation bindings).walkFactor x).outcome) =
      (a :: as.map (·.2)).map Except.ok := by
  have hsteps : (steps.map TermStep.factor).map
      (fun x => ((evaluation bindings).walkFactor x).outcome) =
      (as.map (·.2)).map Except.ok := by
    induction steps generalizing as with
    | nil =>
        obtain rfl := Except.ok.inj has
        rfl
    | cons step steps ih =>
        obtain ⟨operator, place, factor⟩ := step
        obtain ⟨b, bs, hb, hbs, rfl⟩ := walkTermSteps_cons_eq_ok.mp has
        rw [List.map_cons, List.map_cons, ih hbs, TermStep.factor, hb]
        rfl
  rw [TermTree.factors, List.map_cons, List.map_cons, ha, hsteps]

/-- Only a name is handed on to the term around it as one. -/
theorem walkFactor_eq_variable {x : FactorTree} {name : String} {span : Span} :
    ((evaluation bindings).walkFactor x).outcome = .ok (.variable name span) ↔
      ∃ place, x = .reference place ⟨name, span⟩ := by
  constructor
  · intro h
    cases x with
    | reference place l =>
        obtain ⟨rfl, rfl⟩ := Operand.variable.inj (Except.ok.inj h)
        exact ⟨place, rfl⟩
    | call place l first others =>
        obtain ⟨_, hentered, -⟩ := Handled.outcome_bind_eq_ok.mp h
        cases hentered
    | constant literal =>
        obtain ⟨_, -, hvalue⟩ := Handled.outcome_bind_eq_ok.mp h
        cases hvalue
    | group inner =>
        obtain ⟨_, -, h⟩ := Handled.outcome_bind_eq_ok.mp h
        obtain ⟨_, -, hvalue⟩ := Handled.outcome_bind_eq_ok.mp h
        cases hvalue
  · rintro ⟨place, rfl⟩
    rfl

/-- The operands of a term that are names are those among its factors. -/
theorem mem_factors_iff (span : Span) {first : FactorTree} {steps : List TermStep}
    {a : Operand σ} {as : List (MultiplicativeOperator × Operand σ)} {name : String} {place : Span}
    (ha : ((evaluation bindings).walkFactor first).outcome = .ok a)
    (has : ((evaluation bindings).walkTermSteps steps).outcome = .ok as) :
    .variable name place ∈ multiplied a as ∨ .variable name place ∈ divided as ↔
      ∃ around, .reference around ⟨name, place⟩ ∈ (TermTree.mk span first steps).factors := by
  have houtcomes := outcomes_factors span ha has
  rw [← List.mem_append, (multiplied_append_divided_perm a as).mem_iff]
  constructor
  · intro h
    have hmem := List.mem_map_of_mem (f := Except.ok (ε := Fault)) h
    rw [← houtcomes] at hmem
    obtain ⟨x, hx, hvariable⟩ := List.mem_map.mp hmem
    obtain ⟨around, rfl⟩ := walkFactor_eq_variable.mp hvariable
    exact ⟨around, hx⟩
  · rintro ⟨around, h⟩
    have hmem := List.mem_map_of_mem
      (f := fun x => ((evaluation bindings).walkFactor x).outcome) h
    rw [houtcomes, walkFactor_eq_variable.mpr ⟨around, rfl⟩] at hmem
    obtain ⟨x, hx, heq⟩ := List.mem_map.mp hmem
    rwa [Except.ok.inj heq] at hx

theorem lift_eq_series {α : Type} {x : Except LengthMismatch α} {cause : LengthMismatch}
    (h : lift x = .error (.series cause)) : x = .error cause := by
  cases x with
  | error cause' => exact congrArg _ (Fault.series.inj (Except.error.inj h))
  | ok a => simp [lift] at h

/-- The factors that multiply, whatever those that divide come to. -/
theorem values?_multiplied {steps : List TermStep}
    {as : List (MultiplicativeOperator × Operand σ)} {xs : List σ}
    (has : ((evaluation bindings).walkTermSteps steps).outcome = .ok as)
    (hxs : resolveAll bindings ((as.filter fun s => s.1 == .times).map (·.2)) = .ok xs) :
    Factor.values? bindings (TermPhrase.multiplied (TermTree.stepPhrases steps)) = some xs := by
  induction steps generalizing as xs with
  | nil =>
      obtain rfl := Except.ok.inj has
      obtain rfl := Except.ok.inj hxs
      rfl
  | cons step steps ih =>
      obtain ⟨operator, place, factor⟩ := step
      obtain ⟨a, bs, ha, hbs, rfl⟩ := walkTermSteps_cons_eq_ok.mp has
      cases operator with
      | times =>
          obtain ⟨z, zs, hz, hzs, rfl⟩ := resolveAll_cons.mp hxs
          exact Factor.values?_cons.mpr
            ⟨z, zs, walkFactor_value.mp ⟨a, ha, hz⟩, ih hbs hzs, rfl⟩
      | dividedBy => exact ih hbs hxs

/-- A quotient that fails for a mismatch. -/
theorem mismatched_of_quotient {span : Span} {first : FactorTree} {steps : List TermStep}
    {a : Operand σ} {as : List (MultiplicativeOperator × Operand σ)} {cause : LengthMismatch}
    (ha : ((evaluation bindings).walkFactor first).outcome = .ok a)
    (has : ((evaluation bindings).walkTermSteps steps).outcome = .ok as)
    (h : quotient bindings (multiplied a as) (divided as) span = .error (.series cause)) :
    (TermTree.phrase (.mk span first steps)).product.Mismatched bindings cause := by
  rw [TermTree.phrase, TermPhrase.product]
  rcases bind_eq_error.mp h with h | ⟨xs, hxs, h⟩
  · exact absurd h resolveAll_ne_series
  obtain ⟨z, zs, hz, hzs, rfl⟩ := resolveAll_cons.mp hxs
  have hnumerator := Factor.values?_cons.mpr
    ⟨z, zs, walkFactor_value.mp ⟨a, ha, hz⟩, values?_multiplied has hzs, rfl⟩
  rcases bind_eq_error.mp h with h | ⟨dividend, hdividend, h⟩
  · exact .numerator hnumerator (lift_eq_series h)
  have hproduct := lift_eq_ok.mp hdividend
  by_cases hempty : (divided as).isEmpty = true
  · simp [hempty, pure, Except.pure] at h
  rw [if_neg hempty] at h
  rcases bind_eq_error.mp h with h | ⟨ys, hys, h⟩
  · exact absurd h resolveAll_ne_series
  have hdenominator := (walkTermSteps_value.mp ⟨as, has, hzs, hys⟩).2
  rcases bind_eq_error.mp h with h | ⟨divisor, hdivisor, h⟩
  · exact .denominator hnumerator hproduct hdenominator (lift_eq_series h)
  have hne : ys ≠ [] := by
    rintro rfl
    exact hempty (isEmpty_of_resolveAll hys)
  by_cases hzero : Series.containsZero divisor = true
  · simp [hzero] at h
  · rw [if_neg hzero] at h
    exact .quotient hnumerator hproduct hdenominator hne (lift_eq_ok.mp hdivisor)
      (Bool.eq_false_iff.mpr hzero) (lift_eq_series h)

/-- A term whose factors are in order fails with a fault of its own. -/
theorem faulty_of_quotient {span : Span} {first : FactorTree} {steps : List TermStep}
    {a : Operand σ} {as : List (MultiplicativeOperator × Operand σ)} {e : Fault}
    (ha : ((evaluation bindings).walkFactor first).outcome = .ok a)
    (has : ((evaluation bindings).walkTermSteps steps).outcome = .ok as)
    (h : quotient bindings (multiplied a as) (divided as) span = .error e) :
    Faulty bindings (.term (.mk span first steps)) e := by
  rcases quotient_eq_error h with ⟨name, place, hmem, hbound, rfl⟩ | ⟨cause, rfl⟩ | rfl
  · obtain ⟨around, hfactor⟩ := (mem_factors_iff span ha has).mp hmem
    exact .unbound hfactor hbound
  · exact .factors (mismatched_of_quotient ha has h)
  · exact .divisionByZero (term_divisionByZero_iff.mp ⟨a, as, ha, has, h⟩).2

/-- Nothing is wrong with a term that has a value. -/
theorem not_faulty_of_walkTerm {u : TermTree} {x : σ}
    (h : ((evaluation bindings).walkTerm u).outcome = .ok x) (e : Fault) :
    ¬Faulty bindings (.term u) e := by
  have hvalue := walkTerm_value.mp h
  intro hfaulty
  cases hfaulty with
  | divisionByZero hzero => exact Product.not_dividesByZero_of_value hvalue hzero
  | factors hmismatched => exact Product.not_mismatched_of_value hvalue hmismatched
  | @unbound _ place name hfactor hnone =>
      obtain ⟨span, first, steps⟩ := u
      obtain ⟨a, ha, h⟩ := Handled.outcome_bind_eq_ok.mp h
      obtain ⟨as, has, h⟩ := Handled.outcome_bind_eq_ok.mp h
      obtain ⟨xs, ys, hxs, hys, -⟩ := quotient_eq_ok.mp h
      rcases (mem_factors_iff span ha has).mpr ⟨place, hfactor⟩ with hmem | hmem
      · exact bound_of_resolveAll hxs hmem hnone
      · exact bound_of_resolveAll hys hmem hnone

theorem sum_mismatched_iff {span : Span} {first : TermTree} {steps : List ExpressionStep}
    {cause : LengthMismatch} :
    (ExpressionTree.phrase (.mk span first steps)).sum.Mismatched bindings cause ↔
      ∃ a as, ((evaluation bindings).walkTerm first).outcome = .ok a ∧
        ((evaluation bindings).walkSteps steps).outcome = .ok as ∧
        difference (added a as) (subtracted as) = .error (.series cause) := by
  rw [ExpressionTree.phrase, ExpressionPhrase.sum, Sum.Mismatched]
  constructor
  · rintro ⟨xs, ys, hxs, hys, h⟩
    obtain ⟨a, zs, ha, hzs, rfl⟩ := Product.values?_cons.mp hxs
    obtain ⟨as, has, rfl, rfl⟩ := walkSteps_value.mpr ⟨hzs, hys⟩
    exact ⟨a, as, walkTerm_value.mpr ha, has, h⟩
  · rintro ⟨a, as, ha, has, h⟩
    obtain ⟨hadded, hsubtracted⟩ := walkSteps_value.mp ⟨as, has, rfl, rfl⟩
    exact ⟨added a as, subtracted as,
      Product.values?_cons.mpr ⟨a, _, walkTerm_value.mp ha, hadded, rfl⟩, hsubtracted, h⟩

/-- An expression is faulty only if all of its terms have values. -/
theorem walk_of_faulty {span : Span} {first : TermTree} {steps : List ExpressionStep} {e : Fault}
    (h : Faulty bindings (.expression (.mk span first steps)) e) :
    ∃ a as, ((evaluation bindings).walkTerm first).outcome = .ok a ∧
      ((evaluation bindings).walkSteps steps).outcome = .ok as ∧
      difference (added a as) (subtracted as) = .error e := by
  cases h with
  | terms hmismatched => exact sum_mismatched_iff.mp hmismatched

end Parts

/-! ## Literals -/

theorem literalValue_eq_malformed {literal : String} {span : Span} {position : Nat}
    {reason : Malformation}
    (h : literalValue literal span = .error (.malformed position reason)) :
    position = span.start := by
  unfold literalValue at h
  split at h
  · split at h
    · simp at h
    · exact (Fault.malformed.inj (Except.error.inj h)).1.symm
  · simp at h

end Evaluation

end MetricFormula
