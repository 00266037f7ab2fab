/-
  Interpretation/Validation: building the formula that a text stands for.

  Only allowed functions may be called, and every variable is recorded when the
  term around it is complete.  What has been recorded outlives a failure.
-/
import MetricFormula.Interpretation.Basic
import MetricFormula.Interpretation.Literal
import MetricFormula.Ast.Basic
import MetricFormula.NameSet

set_option autoImplicit false

namespace MetricFormula

namespace Validation

/-- Records a variable. -/
def record (name : String) : Handled NameSet Factor := do
  modify fun names => names.insert name
  pure (.variable name)

/-- The factor of an operand. -/
def factor : Operand Factor → Handled NameSet Factor
  | .value x => pure x
  | .variable name _ => record name

/-- The factors of operands. -/
def factors : List (Operand Factor) → Handled NameSet (List Factor)
  | [] => pure []
  | x :: xs => do
      let y ← factor x
      let ys ← factors xs
      pure (y :: ys)

end Validation

namespace Interpretation

open Validation

/-- The formula that a text stands for, calling allowed functions only.  The state
is the set of the variables met. -/
def validation (functions : NameSet) : Interpretation NameSet Sum Product Factor where
  expression positive negative _ := pure (.mk positive negative)
  term numerator denominator _ := do
    let numerator ← factors numerator
    let denominator ← factors denominator
    pure (.mk numerator denominator)
  enterCall _ _ := pure ()
  call name arguments span :=
    if functions.contains name then pure (.call name arguments)
    else throw (.unknownFunction name span)
  reference name _ := record name
  constant literal span := Handled.ofExcept ((literalValue literal span).map .constant)
  group inner _ := pure (.group inner)

end Interpretation

end MetricFormula
