/-
  Interpretation/Acceptance: the interpretation that only asks whether a text is a
  formula.

  Beyond the grammar it asks that every numeral stands for a finite number.
  Functions may have any name.
-/
import MetricFormula.Interpretation.Basic
import MetricFormula.Interpretation.Literal

set_option autoImplicit false

namespace MetricFormula.Interpretation

/-- Accepts every formula and builds nothing. -/
def acceptance : Interpretation Unit Unit Unit Unit where
  expression _ _ _ := pure ()
  term _ _ _ := pure ()
  enterCall _ _ := pure ()
  call _ _ _ := pure ()
  reference _ _ := pure ()
  constant literal span := do
    let _ ← Handled.ofExcept (literalValue literal span)
    pure ()
  group _ _ := pure ()

end MetricFormula.Interpretation
