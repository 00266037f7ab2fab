/-
  Formula: checking, validating and evaluating texts.

  Every operation reads the text under a policy, builds its own interpretation and
  keeps nothing, so that no answer depends on an earlier one.
-/
import MetricFormula.Policy.Basic
import MetricFormula.Ast.Names
import MetricFormula.Ast.Printer
import MetricFormula.Interpretation.Acceptance
import MetricFormula.Interpretation.Validation
import MetricFormula.Interpretation.Evaluation

set_option autoImplicit false

namespace MetricFormula

/-- A validated formula: its text, what it stands for, and the variables that have
to be bound before it can be evaluated. -/
structure Formula where
  source : String
  ast : Sum
  freeVariables : NameSet

namespace Formula

/-- The formula in its normal form; the text it was read from may differ. -/
def display (f : Formula) : String := f.ast.display

end Formula

namespace Policy

/-- Whether a text is a formula. -/
def check (p : Policy) (source : String) : Except Fault Unit :=
  ((Interpretation.acceptance.run p.maxDepth source).runFrom ()).1

/-- The formula that a text stands for. -/
def validate (p : Policy) (source : String) : Except Fault Formula :=
  match ((Interpretation.validation p.functions).run p.maxDepth source).runFrom .empty with
  | (.ok ast, names) => .ok ⟨source, ast, names⟩
  | (.error e, _) => .error e

/-- The value of a text over the series bound to its variables. -/
def evaluate {σ : Type} [Series σ] (p : Policy) (source : String) (bindings : Bindings σ) :
    Except Fault σ :=
  (((Interpretation.evaluation bindings).run p.maxDepth source).runFrom ()).1

end Policy

/-- Whether a text is a formula under the standard policy. -/
def check (source : String) : Except Fault Unit := Policy.standard.check source

/-- The formula that a text stands for if it calls the given functions only. -/
def validate (source : String) (functions : List String) : Except Fault Formula :=
  (Policy.standard.withFunctions functions).validate source

/-- The value of a text over the series bound to its variables, under the standard
policy. -/
def evaluate {σ : Type} [Series σ] (source : String) (bindings : Bindings σ) : Except Fault σ :=
  Policy.standard.evaluate source bindings

end MetricFormula
