/-
  Interpretation/Outline: interpreting the outline of a text.

  An outline says which rules matched which ranges.  This walk takes it part by part, from
  left to right: an operator is remembered until the next one, a word is read from the
  text at its range, and a rule that has no business where it stands is an inconsistency.

  The walk over trees in `Interpretation/Basic` has no such cases, since a tree cannot be
  built in the wrong way.
-/
import MetricFormula.Interpretation.Basic
import MetricFormula.Text.Slice

set_option autoImplicit false

namespace MetricFormula

open MetricFormula.Grammar

namespace Grammar.Outline

def rule : Outline → Rule
  | mk rule _ _ => rule

def span : Outline → Span
  | mk _ span _ => span

end Grammar.Outline

namespace Interpretation

variable {σ ε τ φ : Type}

/-- A rule that has no business inside another one. -/
def unhandled (rule : Rule) (parent : String) : Fault :=
  .internal (.stated ("unhandled rule " ++ rule.name ++ " inside " ++ parent))

/-- What one of the operators joins. -/
def joinedBy {ω α : Type} [BEq ω] (operator : ω) (steps : List (ω × α)) : List α :=
  (steps.filter fun s => s.1 == operator).map (·.2)

/-- A variable is the word inside its outline, without the blanks after it. -/
def outlineReference (source : String) : Outline → Handled σ (Operand φ)
  | .mk _ _ [] => throw (.internal (.stated "variable without an identifier"))
  | .mk _ _ (name :: _) => pure (.variable (name.span.read source) name.span)

variable (I : Interpretation σ ε τ φ) (source : String)

mutual

/-- Interprets the outline of an expression. -/
def outlineExpression : Outline → Handled σ ε
  | .mk _ span parts => do
      let terms ← outlineTerms .plus parts
      I.expression (joinedBy .plus terms) (joinedBy .minus terms) span

/-- Interprets the terms among the parts of an expression, each under the last operator
before it. -/
def outlineTerms : AdditiveOperator → List Outline → Handled σ (List (AdditiveOperator × τ))
  | _, [] => pure []
  | operator, part :: parts =>
      match part.rule with
      | .add => outlineTerms .plus parts
      | .sub => outlineTerms .minus parts
      | .term => do
          let term ← outlineTerm part
          let terms ← outlineTerms operator parts
          pure ((operator, term) :: terms)
      | rule => throw (unhandled rule "expression")

/-- Interprets the outline of a term. -/
def outlineTerm : Outline → Handled σ τ
  | .mk _ span parts => do
      let operands ← outlineOperands .times parts
      I.term (joinedBy .times operands) (joinedBy .dividedBy operands) span

/-- Interprets the factors among the parts of a term, each under the last operator before
it.  An expression can only come from a group. -/
def outlineOperands :
    MultiplicativeOperator → List Outline → Handled σ (List (MultiplicativeOperator × Operand φ))
  | _, [] => pure []
  | operator, part :: parts =>
      match part.rule with
      | .mul => outlineOperands .times parts
      | .div => outlineOperands .dividedBy parts
      | rule => do
          let operand ←
            match rule with
            | .reference => outlineReference source part
            | .call => do
                let value ← outlineCall part
                pure (.value value)
            | .constant => do
                let value ← I.constant (part.span.read source) part.span
                pure (.value value)
            | .expression => do
                let inside ← outlineExpression part
                let value ← I.group inside part.span
                pure (.value value)
            | rule => throw (unhandled rule "term")
          let operands ← outlineOperands operator parts
          pure ((operator, operand) :: operands)

/-- Interprets the outline of a call: the word that comes first is its name, and all
other parts are its arguments. -/
def outlineCall : Outline → Handled σ φ
  | .mk _ _ [] => throw (.internal (.stated "application without a function name"))
  | .mk _ span (name :: arguments) => do
      let name := name.span.read source
      I.enterCall name span
      let arguments ← outlineArguments arguments
      I.call name arguments span

/-- Interprets arguments in a row. -/
def outlineArguments : List Outline → Handled σ (List ε)
  | [] => pure []
  | argument :: arguments => do
      let argument ← outlineExpression argument
      let arguments ← outlineArguments arguments
      pure (argument :: arguments)

end

/-- The outlines of a text that nests at most `maxDepth` levels. -/
def outlines (maxDepth : Nat) (source : String) : Except Fault (List Outline) := do
  Nesting.check maxDepth source
  match matchFrom (outlineFrom .main) source with
  | .ok outlines => .ok outlines
  | .error f => .error (.ofFailure source f.offset f.expected)

/-- Interprets the outline of the expression of a text that nests at most `maxDepth`
levels. -/
def runOutline (maxDepth : Nat) (source : String) : Handled σ ε :=
  match outlines maxDepth source with
  | .ok (.mk _ _ (expression :: _) :: _) => I.outlineExpression source expression
  | .ok _ => throw (.internal (.stated "main rule produced no expression"))
  | .error e => throw e

end Interpretation

end MetricFormula
