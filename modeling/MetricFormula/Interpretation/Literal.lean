/-
  Interpretation/Literal: the numbers that the numerals of a formula stand for.
-/
import MetricFormula.Fault

set_option autoImplicit false

namespace MetricFormula

/-- The number that a literal stands for.  It has to be finite; a literal that is
no number at all is not the formula's fault, since the grammar lets none through. -/
def literalValue (literal : String) (span : Span) : Except Fault Binary64 :=
  match Decimal.read literal with
  | .ok x => if x.isFinite then .ok x else .error (.malformed span.start (.outOfRange literal))
  | .error cause => .error (.internal (.unreadable literal cause))

end MetricFormula
