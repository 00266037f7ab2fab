/-
  Interpretation/Evaluation: the value of a formula over given series.

  Sums are rounded once for all added terms and once for all subtracted ones;
  products and quotients go from left to right.  A term whose denominator has a
  zero in it has no value, and neither has a call.
-/
import MetricFormula.Interpretation.Basic
import MetricFormula.Interpretation.Literal
import MetricFormula.Series.Basic

set_option autoImplicit false

namespace MetricFormula

/-- The series that variables stand for. -/
abbrev Bindings (σ : Type) : Type := String → Option σ

namespace Evaluation

variable {σ : Type} [Series σ]

/-- A mismatch of lengths as a fault. -/
def lift {α : Type} : Except LengthMismatch α → Except Fault α
  | .ok a => .ok a
  | .error e => .error (.series e)

/-- The series of an operand. -/
def resolve (bindings : Bindings σ) : Operand σ → Except Fault σ
  | .value x => .ok x
  | .variable name span =>
      match bindings name with
      | some x => .ok x
      | none => .error (.unboundVariable name span)

/-- The series of operands, up to the first one that has none. -/
def resolveAll (bindings : Bindings σ) : List (Operand σ) → Except Fault (List σ)
  | [] => .ok []
  | x :: xs => do
      let y ← resolve bindings x
      let ys ← resolveAll bindings xs
      pure (y :: ys)

/-- What is added less what is subtracted. -/
def difference (positive negative : List σ) : Except Fault σ := do
  let total ← lift (Series.sum positive)
  if negative.isEmpty then pure total
  else
    let subtrahend ← lift (Series.sum negative)
    lift (Series.sub total subtrahend)

/-- What multiplies over what divides. -/
def quotient (bindings : Bindings σ) (numerator denominator : List (Operand σ)) (span : Span) :
    Except Fault σ := do
  let dividend ← lift (Series.product (← resolveAll bindings numerator))
  if denominator.isEmpty then pure dividend
  else
    let divisor ← lift (Series.product (← resolveAll bindings denominator))
    if Series.containsZero divisor then .error (.divisionByZero span)
    else lift (Series.div dividend divisor)

end Evaluation

namespace Interpretation

open Evaluation

/-- The value over the series that are bound to the variables. -/
def evaluation {σ : Type} [Series σ] (bindings : Bindings σ) : Interpretation Unit σ σ σ where
  expression positive negative _ := Handled.ofExcept (difference positive negative)
  term numerator denominator span := Handled.ofExcept (quotient bindings numerator denominator span)
  enterCall _ span := throw (.unsupported .call span)
  call _ _ span := throw (.unsupported .call span)
  reference _ span := throw (.unsupported .reference span)
  constant literal span := Handled.ofExcept ((literalValue literal span).map Series.broadcast)
  group value _ := pure value

end Interpretation

end MetricFormula
