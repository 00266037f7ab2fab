/-
  Proofs/Interpretation/Value: the value of a formula without its text.

  `Sum.value?` is the value of a formula over the series bound to its variables, if it has
  one.  Evaluating a parse tree comes to a value exactly if the formula that the tree stands
  for has it (`walk_value`): what the fault is depends on the places in the text and on the
  order in which they are visited, the value on neither.

  A term fails for a zero in its denominator exactly if all of its factors have values and the
  product of those that divide has a zero in it (`term_divisionByZero_iff`).
-/
import MetricFormula.Proofs.Interpretation.Validation
import MetricFormula.Proofs.Interpretation.Outcome

set_option autoImplicit false

namespace MetricFormula

open MetricFormula.Grammar

variable {σ : Type} [Series σ]

/-! ## The value of a formula -/

namespace Evaluation

/-- The product of some series over that of others, if the latter has no zero in it. -/
def ratio? (xs ys : List σ) : Option σ := do
  let dividend ← (Series.product xs).toOption
  if ys.isEmpty then some dividend
  else
    let divisor ← (Series.product ys).toOption
    if Series.containsZero divisor then none else (Series.div dividend divisor).toOption

/-- The product of the series that divide has a zero in it. -/
def ZeroDivides (xs ys : List σ) : Prop :=
  ys ≠ [] ∧ (∃ dividend, Series.product xs = .ok dividend) ∧
    ∃ divisor, Series.product ys = .ok divisor ∧ Series.containsZero divisor = true

end Evaluation

open Evaluation

section Values

variable (bindings : Bindings σ)

mutual

/-- The value of a sum. -/
def Sum.value? : Sum → Option σ
  | .mk positive negative => do
      let xs ← Product.values? positive
      let ys ← Product.values? negative
      (difference xs ys).toOption

/-- The value of a product. -/
def Product.value? : Product → Option σ
  | .mk numerator denominator => do
      let xs ← Factor.values? numerator
      let ys ← Factor.values? denominator
      ratio? xs ys

/-- The values of products, if all of them have one. -/
def Product.values? : List Product → Option (List σ)
  | [] => some []
  | p :: ps => do
      let x ← p.value?
      let xs ← Product.values? ps
      some (x :: xs)

/-- The value of a factor.  A call has none, and neither has a constant that is not finite. -/
def Factor.value? : Factor → Option σ
  | .variable name => bindings name
  | .constant x => if x.isFinite then some (Series.broadcast x) else none
  | .group inner => inner.value?
  | .call _ _ => none

/-- The values of factors, if all of them have one. -/
def Factor.values? : List Factor → Option (List σ)
  | [] => some []
  | x :: xs => do
      let y ← x.value?
      let ys ← Factor.values? xs
      some (y :: ys)

end

/-- All factors of a product have values, and those that divide multiply to one with a zero in
it. -/
def Product.DividesByZero : Product → Prop
  | .mk numerator denominator => ∃ xs ys, Factor.values? bindings numerator = some xs ∧
      Factor.values? bindings denominator = some ys ∧ ZeroDivides xs ys

end Values

/-! ## Handlers -/

theorem toOption_eq_some {ε α : Type} {x : Except ε α} {a : α} :
    x.toOption = some a ↔ x = .ok a := by
  cases x <;> simp [Except.toOption]

namespace Evaluation

section Operands

omit [Series σ]

variable {bindings : Bindings σ} {xs : List (Operand σ)} {ys : List σ}

theorem resolveAll_cons {x : Operand σ} :
    resolveAll bindings (x :: xs) = .ok ys ↔
      ∃ z zs, resolve bindings x = .ok z ∧ resolveAll bindings xs = .ok zs ∧ ys = z :: zs := by
  rw [resolveAll]
  simp only [bind_eq_ok, pure, Except.pure, Except.ok.injEq]
  grind

/-- Operands have series unless one of them is a variable without one. -/
theorem exists_resolveAll_or_unbound (bindings : Bindings σ) (xs : List (Operand σ)) :
    (∃ ys, resolveAll bindings xs = .ok ys) ∨
      ∃ name span, .variable name span ∈ xs ∧ bindings name = none ∧
        resolveAll bindings xs = .error (.unboundVariable name span) := by
  induction xs with
  | nil => exact Or.inl ⟨[], rfl⟩
  | cons x xs ih =>
      have hx : (∃ y, resolve bindings x = .ok y) ∨
          ∃ name span, x = .variable name span ∧ bindings name = none ∧
            resolve bindings x = .error (.unboundVariable name span) := by
        rcases x with a | ⟨name, span⟩
        · exact Or.inl ⟨a, rfl⟩
        · rw [resolve]
          cases hbound : bindings name with
          | none => exact Or.inr ⟨name, span, rfl, hbound, rfl⟩
          | some a => exact Or.inl ⟨a, rfl⟩
      rcases hx with ⟨y, hy⟩ | ⟨name, span, rfl, hbound, hx⟩
      · rcases ih with ⟨ys, hys⟩ | ⟨name, span, hmem, hbound, hxs⟩
        · exact Or.inl ⟨y :: ys, resolveAll_cons.mpr ⟨y, ys, hy, hys, rfl⟩⟩
        · refine Or.inr ⟨name, span, List.mem_cons_of_mem x hmem, hbound, ?_⟩
          rw [resolveAll, hy, hxs]
          rfl
      · refine Or.inr ⟨name, span, List.mem_cons_self, hbound, ?_⟩
        rw [resolveAll, hx]
        rfl

theorem isEmpty_of_resolveAll (h : resolveAll bindings xs = .ok ys) : xs.isEmpty = ys.isEmpty := by
  cases xs with
  | nil =>
      obtain rfl := Except.ok.inj h
      rfl
  | cons x xs =>
      obtain ⟨z, zs, -, -, rfl⟩ := resolveAll_cons.mp h
      rfl

end Operands

variable {bindings : Bindings σ} {numerator denominator : List (Operand σ)} {xs ys : List σ}
  {span : Span}

/-- The quotient of series. -/
theorem quotient_of_resolved (hx : resolveAll bindings numerator = .ok xs)
    (hy : resolveAll bindings denominator = .ok ys) :
    quotient bindings numerator denominator span = (do
      let dividend ← lift (Series.product xs)
      if ys.isEmpty then pure dividend
      else
        let divisor ← lift (Series.product ys)
        if Series.containsZero divisor then .error (.divisionByZero span)
        else lift (Series.div dividend divisor)) := by
  unfold quotient
  rw [hx, hy, isEmpty_of_resolveAll hy]
  rfl

/-- A quotient fails for an operand without a series, or for a mismatch, or all operands have
series. -/
theorem quotient_cases (bindings : Bindings σ) (numerator denominator : List (Operand σ))
    (span : Span) :
    (∃ name place, (.variable name place ∈ numerator ∨ .variable name place ∈ denominator) ∧
      bindings name = none ∧
      quotient bindings numerator denominator span = .error (.unboundVariable name place)) ∨
    (∃ cause, quotient bindings numerator denominator span = .error (.series cause)) ∨
    ∃ xs ys, resolveAll bindings numerator = .ok xs ∧ resolveAll bindings denominator = .ok ys := by
  rcases exists_resolveAll_or_unbound bindings numerator with
    ⟨xs, hx⟩ | ⟨name, place, hmem, hbound, hx⟩
  · rcases exists_resolveAll_or_unbound bindings denominator with
      ⟨ys, hy⟩ | ⟨name, place, hmem, hbound, hy⟩
    · exact Or.inr (Or.inr ⟨xs, ys, hx, hy⟩)
    · have hne : denominator.isEmpty = false := by
        cases denominator with
        | nil => simp at hmem
        | cons d ds => rfl
      unfold quotient
      rw [hx, hy, hne]
      cases hproduct : Series.product xs with
      | error cause => exact Or.inr (Or.inl ⟨cause, by simp [bind, Except.bind, hproduct, lift]⟩)
      | ok dividend =>
          exact Or.inl ⟨name, place, Or.inr hmem, hbound,
            by simp [bind, Except.bind, hproduct, lift]⟩
  · unfold quotient
    rw [hx]
    exact Or.inl ⟨name, place, Or.inl hmem, hbound, rfl⟩

theorem quotient_of_resolved_eq_ok {v : σ} (hx : resolveAll bindings numerator = .ok xs)
    (hy : resolveAll bindings denominator = .ok ys) :
    quotient bindings numerator denominator span = .ok v ↔ ratio? xs ys = some v := by
  rw [quotient_of_resolved hx hy, ratio?]
  cases Series.product xs with
  | error cause => simp [lift, bind, Except.bind, Except.toOption]
  | ok dividend =>
      cases ys with
      | nil => simp [lift, bind, Except.bind, Except.toOption, pure, Except.pure]
      | cons y ys =>
          cases Series.product (y :: ys) with
          | error cause => simp [lift, bind, Except.bind, Except.toOption]
          | ok divisor =>
              by_cases hzero : Series.containsZero divisor = true
              · simp [lift, bind, Except.bind, Except.toOption, hzero]
              · cases hdiv : Series.div dividend divisor <;>
                  simp [lift, bind, Except.bind, Except.toOption, hzero, hdiv]

theorem quotient_of_resolved_eq_divisionByZero {place : Span}
    (hx : resolveAll bindings numerator = .ok xs) (hy : resolveAll bindings denominator = .ok ys) :
    quotient bindings numerator denominator span = .error (.divisionByZero place) ↔
      span = place ∧ ZeroDivides xs ys := by
  rw [quotient_of_resolved hx hy, ZeroDivides]
  cases Series.product xs with
  | error cause => simp [lift, bind, Except.bind]
  | ok dividend =>
      cases ys with
      | nil => simp [lift, bind, Except.bind, pure, Except.pure]
      | cons y ys =>
          cases Series.product (y :: ys) with
          | error cause => simp [lift, bind, Except.bind]
          | ok divisor =>
              by_cases hzero : Series.containsZero divisor = true
              · simp [lift, bind, Except.bind, hzero]
              · cases hdiv : Series.div dividend divisor <;>
                  simp [lift, bind, Except.bind, hzero, hdiv]

/-- A term has a value if its factors have series and the quotient of these has one. -/
theorem quotient_eq_ok {v : σ} : quotient bindings numerator denominator span = .ok v ↔
    ∃ xs ys, resolveAll bindings numerator = .ok xs ∧
      resolveAll bindings denominator = .ok ys ∧ ratio? xs ys = some v := by
  constructor
  · intro h
    rcases quotient_cases bindings numerator denominator span with
      ⟨name, place, -, -, herror⟩ | ⟨cause, herror⟩ | ⟨xs, ys, hx, hy⟩
    · simp [h] at herror
    · simp [h] at herror
    · exact ⟨xs, ys, hx, hy, (quotient_of_resolved_eq_ok hx hy).mp h⟩
  · rintro ⟨xs, ys, hx, hy, h⟩
    exact (quotient_of_resolved_eq_ok hx hy).mpr h

/-- A term fails for a zero if its factors have series and those that divide multiply to
one with a zero in it. -/
theorem quotient_eq_divisionByZero {place : Span} :
    quotient bindings numerator denominator span = .error (.divisionByZero place) ↔
      ∃ xs ys, resolveAll bindings numerator = .ok xs ∧
        resolveAll bindings denominator = .ok ys ∧ span = place ∧ ZeroDivides xs ys := by
  constructor
  · intro h
    rcases quotient_cases bindings numerator denominator span with
      ⟨name, place, -, -, herror⟩ | ⟨cause, herror⟩ | ⟨xs, ys, hx, hy⟩
    · simp [h] at herror
    · simp [h] at herror
    · exact ⟨xs, ys, hx, hy, (quotient_of_resolved_eq_divisionByZero hx hy).mp h⟩
  · rintro ⟨xs, ys, hx, hy, h⟩
    exact (quotient_of_resolved_eq_divisionByZero hx hy).mpr h

/-! ### Failures -/

theorem series_of_lift {α : Type} {x : Except LengthMismatch α} {e : Fault}
    (h : lift x = .error e) : ∃ cause, e = .series cause := by
  cases x with
  | error cause => exact ⟨cause, (Except.error.inj h).symm⟩
  | ok a => simp [lift] at h

/-- A difference fails for a mismatch only. -/
theorem series_of_difference {positive negative : List σ} {e : Fault}
    (h : difference positive negative = .error e) : ∃ cause, e = .series cause := by
  rcases bind_eq_error.mp h with h | ⟨total, -, h⟩
  · exact series_of_lift h
  split at h
  · simp [pure, Except.pure] at h
  rcases bind_eq_error.mp h with h | ⟨subtrahend, -, h⟩
  · exact series_of_lift h
  · exact series_of_lift h

/-- A quotient fails for a variable without a series, for a mismatch, or for a zero. -/
theorem quotient_eq_error {e : Fault}
    (h : quotient bindings numerator denominator span = .error e) :
    (∃ name place, (.variable name place ∈ numerator ∨ .variable name place ∈ denominator) ∧
      bindings name = none ∧ e = .unboundVariable name place) ∨
    (∃ cause, e = .series cause) ∨ e = .divisionByZero span := by
  rcases quotient_cases bindings numerator denominator span with
    ⟨name, place, hmem, hbound, herror⟩ | ⟨cause, herror⟩ | ⟨xs, ys, hx, hy⟩
  · exact Or.inl ⟨name, place, hmem, hbound, Except.error.inj (h.symm.trans herror)⟩
  · exact Or.inr (Or.inl ⟨cause, Except.error.inj (h.symm.trans herror)⟩)
  rw [quotient_of_resolved hx hy] at h
  rcases bind_eq_error.mp h with h | ⟨dividend, -, h⟩
  · exact Or.inr (Or.inl (series_of_lift h))
  split at h
  · simp [pure, Except.pure] at h
  rcases bind_eq_error.mp h with h | ⟨divisor, -, h⟩
  · exact Or.inr (Or.inl (series_of_lift h))
  split at h
  · exact Or.inr (Or.inr (Except.error.inj h).symm)
  · exact Or.inr (Or.inl (series_of_lift h))

end Evaluation

/-! ## Lists of values -/

section Lists

variable {bindings : Bindings σ}

theorem Product.values?_cons {p : Product} {ps : List Product} {xs : List σ} :
    Product.values? bindings (p :: ps) = some xs ↔
      ∃ y ys, p.value? bindings = some y ∧ Product.values? bindings ps = some ys ∧
        xs = y :: ys := by
  simp only [Product.values?, Option.bind_eq_bind, Option.bind_eq_some_iff, Option.some.injEq]
  grind

theorem Factor.values?_cons {x : Factor} {xs : List Factor} {ys : List σ} :
    Factor.values? bindings (x :: xs) = some ys ↔
      ∃ z zs, x.value? bindings = some z ∧ Factor.values? bindings xs = some zs ∧
        ys = z :: zs := by
  simp only [Factor.values?, Option.bind_eq_bind, Option.bind_eq_some_iff, Option.some.injEq]
  grind

theorem Sum.value?_eq_some {positive negative : List Product} {v : σ} :
    Sum.value? bindings (.mk positive negative) = some v ↔
      ∃ xs ys, Product.values? bindings positive = some xs ∧
        Product.values? bindings negative = some ys ∧ difference xs ys = .ok v := by
  simp only [Sum.value?, Option.bind_eq_bind, Option.bind_eq_some_iff, toOption_eq_some,
    exists_and_left]

theorem Product.value?_eq_some {numerator denominator : List Factor} {v : σ} :
    Product.value? bindings (.mk numerator denominator) = some v ↔
      ∃ xs ys, Factor.values? bindings numerator = some xs ∧
        Factor.values? bindings denominator = some ys ∧ ratio? xs ys = some v := by
  simp only [Product.value?, Option.bind_eq_bind, Option.bind_eq_some_iff, exists_and_left]

end Lists

/-! ## The walk -/

namespace Interpretation

open Handled

variable {bindings : Bindings σ}

section Steps

theorem walkSteps_cons_eq_ok {operator : AdditiveOperator} {place : Nat} {term : TermTree}
    {steps : List ExpressionStep} {as : List (AdditiveOperator × σ)} :
    ((evaluation bindings).walkSteps (.mk operator place term :: steps)).outcome = .ok as ↔
      ∃ a bs, ((evaluation bindings).walkTerm term).outcome = .ok a ∧
        ((evaluation bindings).walkSteps steps).outcome = .ok bs ∧ as = (operator, a) :: bs := by
  simp only [walkSteps, walkStep, outcome_bind_eq_ok, outcome_pure, Except.ok.injEq]
  grind

theorem walkTermSteps_cons_eq_ok {operator : MultiplicativeOperator} {place : Nat}
    {factor : FactorTree} {steps : List TermStep}
    {as : List (MultiplicativeOperator × Operand σ)} :
    ((evaluation bindings).walkTermSteps (.mk operator place factor :: steps)).outcome = .ok as ↔
      ∃ a bs, ((evaluation bindings).walkFactor factor).outcome = .ok a ∧
        ((evaluation bindings).walkTermSteps steps).outcome = .ok bs ∧
        as = (operator, a) :: bs := by
  simp only [walkTermSteps, walkTermStep, outcome_bind_eq_ok, outcome_pure, Except.ok.injEq]
  grind

end Steps

mutual

/-- A parse tree has a value exactly if the formula that it stands for has it. -/
theorem walk_value : ∀ {t : ExpressionTree} {v : σ},
    ((evaluation bindings).walk t).outcome = .ok v ↔ t.phrase.sum.value? bindings = some v
  | .mk _ first steps, v => by
      rw [ExpressionTree.phrase, ExpressionPhrase.sum, Sum.value?_eq_some]
      constructor
      · intro h
        obtain ⟨a, ha, h⟩ := outcome_bind_eq_ok.mp h
        obtain ⟨as, has, h⟩ := outcome_bind_eq_ok.mp h
        obtain ⟨hadded, hsubtracted⟩ := walkSteps_value.mp ⟨as, has, rfl, rfl⟩
        exact ⟨added a as, subtracted as, Product.values?_cons.mpr
          ⟨a, _, walkTerm_value.mp ha, hadded, rfl⟩, hsubtracted, h⟩
      · rintro ⟨xs, ys, hxs, hys, h⟩
        obtain ⟨a, zs, ha, hzs, rfl⟩ := Product.values?_cons.mp hxs
        obtain ⟨as, has, rfl, rfl⟩ := walkSteps_value.mpr ⟨hzs, hys⟩
        exact outcome_bind_eq_ok.mpr ⟨a, walkTerm_value.mpr ha,
          outcome_bind_eq_ok.mpr ⟨as, has, h⟩⟩

theorem walkSteps_value : ∀ {steps : List ExpressionStep} {xs ys : List σ},
    (∃ as, ((evaluation bindings).walkSteps steps).outcome = .ok as ∧
      (as.filter fun s => s.1 == .plus).map (·.2) = xs ∧ subtracted as = ys) ↔
    Product.values? bindings (ExpressionPhrase.added (ExpressionTree.stepPhrases steps)) = some xs ∧
      Product.values? bindings (ExpressionPhrase.subtracted (ExpressionTree.stepPhrases steps)) =
        some ys
  | [], xs, ys => by
      simp [walkSteps, subtracted, ExpressionTree.stepPhrases, ExpressionPhrase.added,
        ExpressionPhrase.subtracted, Product.values?]
  | .mk .plus place term :: steps, xs, ys => by
      rw [ExpressionTree.stepPhrases, ExpressionPhrase.added, ExpressionPhrase.subtracted,
        Product.values?_cons]
      constructor
      · rintro ⟨as, has, rfl, rfl⟩
        obtain ⟨a, bs, ha, hbs, rfl⟩ := walkSteps_cons_eq_ok.mp has
        obtain ⟨hadded, hsubtracted⟩ := walkSteps_value.mp ⟨bs, hbs, rfl, rfl⟩
        exact ⟨⟨a, _, walkTerm_value.mp ha, hadded, rfl⟩, hsubtracted⟩
      · rintro ⟨⟨a, zs, ha, hzs, rfl⟩, hys⟩
        obtain ⟨bs, hbs, rfl, rfl⟩ := walkSteps_value.mpr ⟨hzs, hys⟩
        exact ⟨_, walkSteps_cons_eq_ok.mpr ⟨a, bs, walkTerm_value.mpr ha, hbs, rfl⟩, rfl,
          rfl⟩
  | .mk .minus place term :: steps, xs, ys => by
      rw [ExpressionTree.stepPhrases, ExpressionPhrase.added, ExpressionPhrase.subtracted,
        Product.values?_cons]
      constructor
      · rintro ⟨as, has, rfl, rfl⟩
        obtain ⟨a, bs, ha, hbs, rfl⟩ := walkSteps_cons_eq_ok.mp has
        obtain ⟨hadded, hsubtracted⟩ := walkSteps_value.mp ⟨bs, hbs, rfl, rfl⟩
        exact ⟨hadded, ⟨a, _, walkTerm_value.mp ha, hsubtracted, rfl⟩⟩
      · rintro ⟨hxs, ⟨a, zs, ha, hzs, rfl⟩⟩
        obtain ⟨bs, hbs, rfl, rfl⟩ := walkSteps_value.mpr ⟨hxs, hzs⟩
        exact ⟨_, walkSteps_cons_eq_ok.mpr ⟨a, bs, walkTerm_value.mpr ha, hbs, rfl⟩, rfl,
          rfl⟩

theorem walkTerm_value : ∀ {t : TermTree} {v : σ},
    ((evaluation bindings).walkTerm t).outcome = .ok v ↔ t.phrase.product.value? bindings = some v
  | .mk _ first steps, v => by
      rw [TermTree.phrase, TermPhrase.product, Product.value?_eq_some]
      constructor
      · intro h
        obtain ⟨a, ha, h⟩ := outcome_bind_eq_ok.mp h
        obtain ⟨as, has, h⟩ := outcome_bind_eq_ok.mp h
        obtain ⟨xs, ys, hxs, hys, h⟩ := quotient_eq_ok.mp h
        obtain ⟨x, zs, hx, hzs, rfl⟩ := resolveAll_cons.mp hxs
        obtain ⟨hmultiplied, hdivided⟩ := walkTermSteps_value.mp ⟨as, has, hzs, hys⟩
        exact ⟨x :: zs, ys, Factor.values?_cons.mpr
          ⟨x, zs, walkFactor_value.mp ⟨a, ha, hx⟩, hmultiplied, rfl⟩, hdivided, h⟩
      · rintro ⟨xs, ys, hxs, hys, h⟩
        obtain ⟨x, zs, hx, hzs, rfl⟩ := Factor.values?_cons.mp hxs
        obtain ⟨a, ha, hresolve⟩ := walkFactor_value.mpr hx
        obtain ⟨as, has, hmultiplied, hdivided⟩ := walkTermSteps_value.mpr ⟨hzs, hys⟩
        refine outcome_bind_eq_ok.mpr ⟨a, ha, outcome_bind_eq_ok.mpr ⟨as, has, ?_⟩⟩
        exact quotient_eq_ok.mpr ⟨x :: zs, ys,
          resolveAll_cons.mpr ⟨x, zs, hresolve, hmultiplied, rfl⟩, hdivided, h⟩

theorem walkTermSteps_value : ∀ {steps : List TermStep} {xs ys : List σ},
    (∃ as, ((evaluation bindings).walkTermSteps steps).outcome = .ok as ∧
      resolveAll bindings ((as.filter fun s => s.1 == .times).map (·.2)) = .ok xs ∧
      resolveAll bindings (divided as) = .ok ys) ↔
    Factor.values? bindings (TermPhrase.multiplied (TermTree.stepPhrases steps)) = some xs ∧
      Factor.values? bindings (TermPhrase.divided (TermTree.stepPhrases steps)) = some ys
  | [], xs, ys => by
      simp [walkTermSteps, divided, resolveAll, TermTree.stepPhrases, TermPhrase.multiplied,
        TermPhrase.divided, Factor.values?]
  | .mk .times place factor :: steps, xs, ys => by
      rw [TermTree.stepPhrases, TermPhrase.multiplied, TermPhrase.divided, Factor.values?_cons]
      constructor
      · rintro ⟨as, has, hxs, hys⟩
        obtain ⟨a, bs, ha, hbs, rfl⟩ := walkTermSteps_cons_eq_ok.mp has
        obtain ⟨z, zs, hz, hzs, rfl⟩ := resolveAll_cons.mp hxs
        obtain ⟨hmultiplied, hdivided⟩ := walkTermSteps_value.mp ⟨bs, hbs, hzs, hys⟩
        exact ⟨⟨z, zs, walkFactor_value.mp ⟨a, ha, hz⟩, hmultiplied, rfl⟩, hdivided⟩
      · rintro ⟨⟨z, zs, hz, hzs, rfl⟩, hys⟩
        obtain ⟨a, ha, hresolve⟩ := walkFactor_value.mpr hz
        obtain ⟨bs, hbs, hmultiplied, hdivided⟩ := walkTermSteps_value.mpr ⟨hzs, hys⟩
        exact ⟨_, walkTermSteps_cons_eq_ok.mpr ⟨a, bs, ha, hbs, rfl⟩,
          resolveAll_cons.mpr ⟨z, zs, hresolve, hmultiplied, rfl⟩, hdivided⟩
  | .mk .dividedBy place factor :: steps, xs, ys => by
      rw [TermTree.stepPhrases, TermPhrase.multiplied, TermPhrase.divided, Factor.values?_cons]
      constructor
      · rintro ⟨as, has, hxs, hys⟩
        obtain ⟨a, bs, ha, hbs, rfl⟩ := walkTermSteps_cons_eq_ok.mp has
        obtain ⟨z, zs, hz, hzs, rfl⟩ := resolveAll_cons.mp hys
        obtain ⟨hmultiplied, hdivided⟩ := walkTermSteps_value.mp ⟨bs, hbs, hxs, hzs⟩
        exact ⟨hmultiplied, z, zs, walkFactor_value.mp ⟨a, ha, hz⟩, hdivided, rfl⟩
      · rintro ⟨hxs, z, zs, hz, hzs, rfl⟩
        obtain ⟨a, ha, hresolve⟩ := walkFactor_value.mpr hz
        obtain ⟨bs, hbs, hmultiplied, hdivided⟩ := walkTermSteps_value.mpr ⟨hxs, hzs⟩
        exact ⟨_, walkTermSteps_cons_eq_ok.mpr ⟨a, bs, ha, hbs, rfl⟩, hmultiplied,
          resolveAll_cons.mpr ⟨z, zs, hresolve, hdivided, rfl⟩⟩

theorem walkFactor_value : ∀ {x : FactorTree} {v : σ},
    (∃ a, ((evaluation bindings).walkFactor x).outcome = .ok a ∧ resolve bindings a = .ok v) ↔
      x.phrase.factor.value? bindings = some v
  | .call _ _ _ _, v => by
      constructor
      · rintro ⟨a, ha, -⟩
        obtain ⟨_, hentered, -⟩ := outcome_bind_eq_ok.mp ha
        cases hentered
      · intro h
        cases h
  | .reference _ name, v => by
      rw [FactorTree.phrase, FactorPhrase.factor, Factor.value?, String.ofList_toList]
      simp only [walkFactor, outcome_pure, Except.ok.injEq, exists_eq_left', resolve]
      cases bindings name.text <;> simp
  | .constant literal, v => by
      rw [FactorTree.phrase, FactorPhrase.factor, Factor.value?]
      have hwalk : ((evaluation bindings).walkFactor (.constant literal)).outcome =
          (literalValue literal.text literal.span).map fun x => .value (Series.broadcast x) := by
        simp only [walkFactor, Handled.outcome_bind, evaluation, outcome_ofExcept]
        cases literalValue literal.text literal.span <;> rfl
      rw [hwalk]
      cases hvalue : literalValue literal.text literal.span with
      | ok y =>
          obtain ⟨hfinite, rfl⟩ := Validation.literalValue_eq_ok_iff.mp hvalue
          rw [if_pos hfinite, Option.some.injEq]
          simp [Except.map, resolve]
      | error e =>
          have hinfinite : ¬(literalNumber literal.text.toList).isFinite = true := by
            intro hfinite
            have hok : literalValue literal.text literal.span = .ok _ :=
              Validation.literalValue_eq_ok_iff.mpr ⟨hfinite, rfl⟩
            simp [hvalue] at hok
          rw [if_neg hinfinite]
          simp [Except.map]
  | .group inner, v => by
      rw [FactorTree.phrase, FactorPhrase.factor, Factor.value?, ← walk_value]
      constructor
      · rintro ⟨a, ha, hresolve⟩
        obtain ⟨x, hx, ha⟩ := outcome_bind_eq_ok.mp ha
        obtain rfl := Except.ok.inj ha
        rwa [← Except.ok.inj hresolve]
      · intro h
        exact ⟨.value v, outcome_bind_eq_ok.mpr ⟨v, h, rfl⟩, rfl⟩

end

/-- A term with nothing wrong in it fails for a zero in its denominator exactly if the product
that it stands for divides by one. -/
theorem term_divisionByZero_iff {span place : Span} {first : FactorTree} {steps : List TermStep} :
    (∃ a as, ((evaluation bindings).walkFactor first).outcome = .ok a ∧
      ((evaluation bindings).walkTermSteps steps).outcome = .ok as ∧
      quotient bindings (multiplied a as) (divided as) span = .error (.divisionByZero place)) ↔
    span = place ∧ (TermTree.phrase (.mk span first steps)).product.DividesByZero bindings := by
  rw [TermTree.phrase, TermPhrase.product, Product.DividesByZero]
  constructor
  · rintro ⟨a, as, ha, has, hquotient⟩
    obtain ⟨xs, ys, hxs, hys, rfl, hzero⟩ := quotient_eq_divisionByZero.mp hquotient
    obtain ⟨x, zs, hx, hzs, rfl⟩ := resolveAll_cons.mp hxs
    obtain ⟨hmultiplied, hdivided⟩ := walkTermSteps_value.mp ⟨as, has, hzs, hys⟩
    exact ⟨rfl, x :: zs, ys, Factor.values?_cons.mpr
      ⟨x, zs, walkFactor_value.mp ⟨a, ha, hx⟩, hmultiplied, rfl⟩, hdivided, hzero⟩
  · rintro ⟨rfl, xs, ys, hxs, hys, hzero⟩
    obtain ⟨x, zs, hx, hzs, rfl⟩ := Factor.values?_cons.mp hxs
    obtain ⟨a, ha, hresolve⟩ := walkFactor_value.mpr hx
    obtain ⟨as, has, hmultiplied, hdivided⟩ := walkTermSteps_value.mpr ⟨hzs, hys⟩
    exact ⟨a, as, ha, has, quotient_eq_divisionByZero.mpr ⟨x :: zs, ys,
      resolveAll_cons.mpr ⟨x, zs, hresolve, hmultiplied, rfl⟩, hdivided, rfl, hzero⟩⟩

end Interpretation

/-! ## Texts -/

/-- A text has the value of the formula that its parse tree stands for. -/
theorem Policy.evaluate_of_parse {bindings : Bindings σ} {p : Policy} {source : String}
    {t : ExpressionTree} (h : Interpretation.parse p.maxDepth source = .ok t) {v : σ} :
    p.evaluate source bindings = .ok v ↔ t.phrase.sum.value? bindings = some v := by
  rw [Policy.evaluate_eq, h, ← Interpretation.walk_value]
  rfl

end MetricFormula
