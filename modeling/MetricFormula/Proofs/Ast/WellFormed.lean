/-
  Proofs/Ast/WellFormed: the formulas that can be written down.

  In a well-formed sum no list that needs a member is empty, names are names of the
  grammar, functions are allowed ones and constants are finite and not negative.

  A derivation and its sum nest equally deep (`ExpressionPhrase.depth_sum`), and if the
  sum is well-formed, then validation admits the derivation (`Sum.WellFormed.admits`).
-/
import MetricFormula.Proofs.Interpretation.Validation

set_option autoImplicit false

namespace MetricFormula

open MetricFormula.Grammar
open MetricFormula.Validation (Admits admits_nil admits_append admits_call)

/-! ## Well-formed sums -/

mutual

/-- Something is added, and all products are well-formed. -/
inductive Sum.WellFormed (functions : NameSet) : Sum → Prop
  | mk {positive negative : List Product} : positive ≠ [] →
      (∀ p ∈ positive, Product.WellFormed functions p) →
      (∀ p ∈ negative, Product.WellFormed functions p) →
      Sum.WellFormed functions (.mk positive negative)

/-- Something multiplies, and all factors are well-formed. -/
inductive Product.WellFormed (functions : NameSet) : Product → Prop
  | mk {numerator denominator : List Factor} : numerator ≠ [] →
      (∀ x ∈ numerator, Factor.WellFormed functions x) →
      (∀ x ∈ denominator, Factor.WellFormed functions x) →
      Product.WellFormed functions (.mk numerator denominator)

/-- Names are names, constants are finite without a sign, and a call is one of an
allowed function with at least one argument. -/
inductive Factor.WellFormed (functions : NameSet) : Factor → Prop
  | variable {name : String} : IsName name.toList → Factor.WellFormed functions (.variable name)
  | constant (magnitude : Binary64.Magnitude) :
      Factor.WellFormed functions (.constant (.finite false magnitude))
  | group {inner : Sum} : Sum.WellFormed functions inner →
      Factor.WellFormed functions (.group inner)
  | call {function : String} {arguments : List Sum} : IsName function.toList →
      function ∈ functions → arguments ≠ [] → (∀ s ∈ arguments, Sum.WellFormed functions s) →
      Factor.WellFormed functions (.call function arguments)

end

section Alone

variable {functions : NameSet}

/-- A factor alone is a product. -/
theorem Factor.WellFormed.product {x : Factor} (h : x.WellFormed functions) :
    Product.WellFormed functions (.mk [x] []) :=
  .mk (by simp) (List.forall_mem_singleton.mpr h) (List.forall_mem_nil _)

/-- A product alone is a sum. -/
theorem Product.WellFormed.sum {p : Product} (h : p.WellFormed functions) :
    Sum.WellFormed functions (.mk [p] []) :=
  .mk (by simp) (List.forall_mem_singleton.mpr h) (List.forall_mem_nil _)

end Alone

/-! ## Depth -/

mutual

/-- How many groups and calls stand inside each other in a sum. -/
def Sum.depth : Sum → Nat
  | .mk positive negative => max (Product.depths positive) (Product.depths negative)

/-- The greatest depth among products. -/
def Product.depths : List Product → Nat
  | [] => 0
  | p :: ps => max p.depth (Product.depths ps)

/-- The depth of a product. -/
def Product.depth : Product → Nat
  | .mk numerator denominator => max (Factor.depths numerator) (Factor.depths denominator)

/-- The greatest depth among factors. -/
def Factor.depths : List Factor → Nat
  | [] => 0
  | x :: xs => max x.depth (Factor.depths xs)

/-- The depth of a factor: a group or a call is one deeper than what is in it. -/
def Factor.depth : Factor → Nat
  | .variable _ => 0
  | .constant _ => 0
  | .group inner => inner.depth + 1
  | .call _ arguments => Sum.depths arguments + 1

/-- The greatest depth among sums. -/
def Sum.depths : List Sum → Nat
  | [] => 0
  | s :: ss => max s.depth (Sum.depths ss)

end

namespace Grammar

mutual

/-- Sorting the steps of a derivation by their operators keeps the depth. -/
theorem ExpressionPhrase.depth_sum : ∀ e : ExpressionPhrase, e.sum.depth = e.depth
  | .mk first steps => by
      rw [ExpressionPhrase.sum, Sum.depth, Product.depths, first.depth_product,
        ExpressionPhrase.depth, ← ExpressionPhrase.depth_steps steps, Nat.max_assoc]

theorem ExpressionPhrase.depth_steps : ∀ steps : List ExpressionPhraseStep,
    max (Product.depths (ExpressionPhrase.added steps))
      (Product.depths (ExpressionPhrase.subtracted steps)) = ExpressionPhrase.stepsDepth steps
  | [] => rfl
  | .mk .plus term :: steps => by
      rw [ExpressionPhrase.added, ExpressionPhrase.subtracted, Product.depths, term.depth_product,
        ExpressionPhrase.stepsDepth, ← ExpressionPhrase.depth_steps steps, Nat.max_assoc]
  | .mk .minus term :: steps => by
      rw [ExpressionPhrase.added, ExpressionPhrase.subtracted, Product.depths, term.depth_product,
        ExpressionPhrase.stepsDepth, ← ExpressionPhrase.depth_steps steps, Nat.max_left_comm]

theorem TermPhrase.depth_product : ∀ t : TermPhrase, t.product.depth = t.depth
  | .mk first steps => by
      rw [TermPhrase.product, Product.depth, Factor.depths, first.depth_factor,
        TermPhrase.depth, ← TermPhrase.depth_steps steps, Nat.max_assoc]

theorem TermPhrase.depth_steps : ∀ steps : List TermPhraseStep,
    max (Factor.depths (TermPhrase.multiplied steps))
      (Factor.depths (TermPhrase.divided steps)) = TermPhrase.stepsDepth steps
  | [] => rfl
  | .mk .times factor :: steps => by
      rw [TermPhrase.multiplied, TermPhrase.divided, Factor.depths, factor.depth_factor,
        TermPhrase.stepsDepth, ← TermPhrase.depth_steps steps, Nat.max_assoc]
  | .mk .dividedBy factor :: steps => by
      rw [TermPhrase.multiplied, TermPhrase.divided, Factor.depths, factor.depth_factor,
        TermPhrase.stepsDepth, ← TermPhrase.depth_steps steps, Nat.max_left_comm]

theorem FactorPhrase.depth_factor : ∀ x : FactorPhrase, x.factor.depth = x.depth
  | .reference _ => rfl
  | .constant _ => rfl
  | .group inner => by
      rw [FactorPhrase.factor, Factor.depth, inner.depth_sum, FactorPhrase.depth]
  | .call _ first others => by
      rw [FactorPhrase.factor, Factor.depth, Sum.depths, first.depth_sum,
        ExpressionPhrase.depth_sums others, FactorPhrase.depth]

theorem ExpressionPhrase.depth_sums : ∀ es : List ExpressionPhrase,
    Sum.depths (ExpressionPhrase.sums es) = ExpressionPhrase.depths es
  | [] => rfl
  | e :: es => by
      rw [ExpressionPhrase.sums, Sum.depths, e.depth_sum, ExpressionPhrase.depth_sums es,
        ExpressionPhrase.depths]

end

end Grammar

/-! ## What validation admits -/

section Admission

variable {functions : NameSet}

mutual

/-- A derivation with a well-formed sum has finite literals and calls allowed functions
only. -/
theorem Sum.WellFormed.admits : ∀ {e : ExpressionPhrase}, e.sum.WellFormed functions →
    Admits functions e.literals e.calls
  | .mk first steps, .mk _ hpositive hnegative => by
      obtain ⟨hfirst, hadded⟩ := List.forall_mem_cons.mp hpositive
      exact admits_append.mpr ⟨hfirst.admits, admits_of_added_subtracted hadded hnegative⟩

theorem admits_of_added_subtracted : ∀ {steps : List ExpressionPhraseStep},
    (∀ p ∈ ExpressionPhrase.added steps, Product.WellFormed functions p) →
    (∀ p ∈ ExpressionPhrase.subtracted steps, Product.WellFormed functions p) →
    Admits functions (ExpressionPhrase.stepLiterals steps) (ExpressionPhrase.stepCalls steps)
  | [], _, _ => admits_nil
  | .mk .plus term :: steps, hadded, hsubtracted => by
      obtain ⟨hterm, hadded⟩ := List.forall_mem_cons.mp hadded
      exact admits_append.mpr ⟨hterm.admits, admits_of_added_subtracted hadded hsubtracted⟩
  | .mk .minus term :: steps, hadded, hsubtracted => by
      obtain ⟨hterm, hsubtracted⟩ := List.forall_mem_cons.mp hsubtracted
      exact admits_append.mpr ⟨hterm.admits, admits_of_added_subtracted hadded hsubtracted⟩

theorem Product.WellFormed.admits : ∀ {t : TermPhrase}, t.product.WellFormed functions →
    Admits functions t.literals t.calls
  | .mk first steps, .mk _ hnumerator hdenominator => by
      obtain ⟨hfirst, hmultiplied⟩ := List.forall_mem_cons.mp hnumerator
      exact admits_append.mpr ⟨hfirst.admits, admits_of_multiplied_divided hmultiplied hdenominator⟩

theorem admits_of_multiplied_divided : ∀ {steps : List TermPhraseStep},
    (∀ x ∈ TermPhrase.multiplied steps, Factor.WellFormed functions x) →
    (∀ x ∈ TermPhrase.divided steps, Factor.WellFormed functions x) →
    Admits functions (TermPhrase.stepLiterals steps) (TermPhrase.stepCalls steps)
  | [], _, _ => admits_nil
  | .mk .times factor :: steps, hmultiplied, hdivided => by
      obtain ⟨hfactor, hmultiplied⟩ := List.forall_mem_cons.mp hmultiplied
      exact admits_append.mpr ⟨hfactor.admits, admits_of_multiplied_divided hmultiplied hdivided⟩
  | .mk .dividedBy factor :: steps, hmultiplied, hdivided => by
      obtain ⟨hfactor, hdivided⟩ := List.forall_mem_cons.mp hdivided
      exact admits_append.mpr ⟨hfactor.admits, admits_of_multiplied_divided hmultiplied hdivided⟩

theorem Factor.WellFormed.admits : ∀ {x : FactorPhrase}, x.factor.WellFormed functions →
    Admits functions x.literals x.calls
  | .reference _, _ => admits_nil
  | .constant literal, h => by
      refine ⟨?_, by simp [FactorPhrase.calls]⟩
      intro l hl
      rw [FactorPhrase.literals, List.mem_singleton] at hl
      rw [FactorPhrase.factor] at h
      generalize hx : literalNumber literal = x at h
      cases h
      rw [hl, hx]
      rfl
  | .group inner, .group hinner => hinner.admits
  | .call name first others, .call _ hname _ harguments => by
      obtain ⟨hfirst, hothers⟩ := List.forall_mem_cons.mp harguments
      exact admits_call.mpr ⟨admits_append.mpr ⟨hfirst.admits, admits_of_sums hothers⟩, hname⟩

theorem admits_of_sums : ∀ {es : List ExpressionPhrase},
    (∀ s ∈ ExpressionPhrase.sums es, Sum.WellFormed functions s) →
    Admits functions (ExpressionPhrase.argumentLiterals es) (ExpressionPhrase.argumentCalls es)
  | [], _ => admits_nil
  | e :: es, h => by
      obtain ⟨he, hes⟩ := List.forall_mem_cons.mp h
      exact admits_append.mpr ⟨he.admits, admits_of_sums hes⟩

end

end Admission

end MetricFormula
