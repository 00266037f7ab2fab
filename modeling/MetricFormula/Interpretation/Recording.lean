/-
  Interpretation/Recording: which handlers of an interpretation are called, and
  with what.

  `recorded I` does what `I` does and keeps a list of the calls beside the state of
  `I`.  A call is on the list even if its handler fails.
-/
import MetricFormula.Interpretation.Basic

set_option autoImplicit false

namespace MetricFormula

/-- What a term was told of an operand. -/
inductive OperandShape where
  | value
  | variable (name : String) (span : Span)
  deriving DecidableEq, Repr

/-- What a term was told of an operand, without the value. -/
def Operand.shape {φ : Type} : Operand φ → OperandShape
  | .value _ => .value
  | .variable name span => .variable name span

/-- A call of a handler, without the values that it was given. -/
inductive HandlerCall where
  | expression (positive negative : Nat) (span : Span)
  | term (numerator denominator : List OperandShape) (span : Span)
  | enterCall (name : String) (span : Span)
  | call (name : String) (arguments : Nat) (span : Span)
  | reference (name : String) (span : Span)
  | constant (literal : String) (span : Span)
  | group (span : Span)
  deriving DecidableEq, Repr

namespace Interpretation

variable {σ ε τ φ : Type}

/-- A step with one call put on the list before it. -/
def recordedStep {α : Type} (entry : HandlerCall) (x : Handled σ α) :
    Handled (List HandlerCall × σ) α :=
  ExceptT.mk fun (calls, s) =>
    let (result, s') := x.runFrom s
    (result, calls ++ [entry], s')

/-- The same interpretation with a list of its calls. -/
def recorded (I : Interpretation σ ε τ φ) : Interpretation (List HandlerCall × σ) ε τ φ where
  expression positive negative span :=
    recordedStep (.expression positive.length negative.length span)
      (I.expression positive negative span)
  term numerator denominator span :=
    recordedStep (.term (numerator.map Operand.shape) (denominator.map Operand.shape) span)
      (I.term numerator denominator span)
  enterCall name span := recordedStep (.enterCall name span) (I.enterCall name span)
  call name arguments span :=
    recordedStep (.call name arguments.length span) (I.call name arguments span)
  reference name span := recordedStep (.reference name span) (I.reference name span)
  constant literal span := recordedStep (.constant literal span) (I.constant literal span)
  group inner span := recordedStep (.group span) (I.group inner span)

/-- Takes everything as it is, numerals included, but for the calls of functions
that a test refuses. -/
def indifferent (refuse : String → Option Fault) : Interpretation Unit Unit Unit Unit where
  expression _ _ _ := pure ()
  term _ _ _ := pure ()
  enterCall name _ :=
    match refuse name with
    | some e => throw e
    | none => pure ()
  call _ _ _ := pure ()
  reference _ _ := pure ()
  constant _ _ := pure ()
  group _ _ := pure ()

end Interpretation

end MetricFormula
