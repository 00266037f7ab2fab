/-
  Interpretation/Basic: what a formula can be taken to mean.

  An interpretation has one handler for each construct of the grammar.  `walk`
  hands it the constructs of a tree, innermost first and from left to right, and
  stops at the first handler that fails.  An interpretation can keep a state, which
  outlives a failure.

  A variable is not interpreted where it stands: the term around it receives its
  name and decides.
-/
import MetricFormula.Fault
import MetricFormula.Nesting
import MetricFormula.Grammar.Formula

set_option autoImplicit false

namespace MetricFormula

open MetricFormula.Grammar

/-- A step of an interpretation with state `σ`. -/
abbrev Handled (σ α : Type) : Type := ExceptT Fault (StateM σ) α

namespace Handled

variable {σ α β : Type}

/-- Runs a step from a state: its result, and the state after it. -/
def runFrom (x : Handled σ α) (s : σ) : Except Fault α × σ := StateT.run (ExceptT.run x) s

/-- A step that leaves the state alone. -/
def ofExcept (x : Except Fault α) : Handled σ α := ExceptT.mk (pure x)

@[simp] theorem runFrom_pure (a : α) (s : σ) : (pure a : Handled σ α).runFrom s = (.ok a, s) := rfl

@[simp] theorem runFrom_throw (e : Fault) (s : σ) :
    (throw e : Handled σ α).runFrom s = (.error e, s) := rfl

@[simp] theorem runFrom_ofExcept (x : Except Fault α) (s : σ) :
    (ofExcept x : Handled σ α).runFrom s = (x, s) := rfl

/-- The second step runs from the state that the first one left, unless the first
one failed. -/
theorem runFrom_bind (x : Handled σ α) (k : α → Handled σ β) (s : σ) :
    (x >>= k).runFrom s =
      match x.runFrom s with
      | (.ok a, s') => (k a).runFrom s'
      | (.error e, s') => (.error e, s') := by
  change ExceptT.bindCont k (x.runFrom s).1 (x.runFrom s).2 = _
  rcases x.runFrom s with ⟨e | a, s'⟩
  · rfl
  · rfl

end Handled

/-- A factor as a term receives it: interpreted already, or the name of a
variable. -/
inductive Operand (φ : Type) where
  | value (value : φ)
  | variable (name : String) (span : Span)
  deriving DecidableEq, Repr

/-- The handlers of an interpretation: `ε`, `τ` and `φ` are what expressions, terms
and factors come to. -/
structure Interpretation (σ ε τ φ : Type) where
  /-- An expression: the terms that are added, and those that are subtracted. -/
  expression : (positive negative : List τ) → Span → Handled σ ε
  /-- A term: the factors that multiply, and those that divide. -/
  term : (numerator denominator : List (Operand φ)) → Span → Handled σ τ
  /-- A call, before its arguments. -/
  enterCall : String → Span → Handled σ Unit
  /-- A call with its arguments. -/
  call : String → List ε → Span → Handled σ φ
  /-- A variable. -/
  reference : String → Span → Handled σ φ
  /-- A numeral, as it is written. -/
  constant : String → Span → Handled σ φ
  /-- An expression in parentheses. -/
  group : ε → Span → Handled σ φ

namespace Interpretation

variable {σ ε τ φ : Type}

/-! ## Splitting by operator -/

/-- What stands first, and what `plus` joins to it. -/
def added (first : τ) (steps : List (AdditiveOperator × τ)) : List τ :=
  first :: (steps.filter fun s => s.1 == .plus).map (·.2)

/-- What `minus` joins. -/
def subtracted (steps : List (AdditiveOperator × τ)) : List τ :=
  (steps.filter fun s => s.1 == .minus).map (·.2)

/-- What stands first, and what `times` joins to it. -/
def multiplied (first : φ) (steps : List (MultiplicativeOperator × φ)) : List φ :=
  first :: (steps.filter fun s => s.1 == .times).map (·.2)

/-- What `dividedBy` joins. -/
def divided (steps : List (MultiplicativeOperator × φ)) : List φ :=
  (steps.filter fun s => s.1 == .dividedBy).map (·.2)

/-! ## The walk -/

variable (I : Interpretation σ ε τ φ)

mutual

/-- Interprets an expression. -/
def walk : ExpressionTree → Handled σ ε
  | .mk span first steps => do
      let first ← walkTerm first
      let steps ← walkSteps steps
      I.expression (added first steps) (subtracted steps) span

/-- Interprets the steps of an expression. -/
def walkSteps : List ExpressionStep → Handled σ (List (AdditiveOperator × τ))
  | [] => pure []
  | step :: steps => do
      let step ← walkStep step
      let steps ← walkSteps steps
      pure (step :: steps)

/-- Interprets a step of an expression. -/
def walkStep : ExpressionStep → Handled σ (AdditiveOperator × τ)
  | .mk operator _ term => do
      let term ← walkTerm term
      pure (operator, term)

/-- Interprets a term. -/
def walkTerm : TermTree → Handled σ τ
  | .mk span first steps => do
      let first ← walkFactor first
      let steps ← walkTermSteps steps
      I.term (multiplied first steps) (divided steps) span

/-- Interprets the steps of a term. -/
def walkTermSteps : List TermStep → Handled σ (List (MultiplicativeOperator × Operand φ))
  | [] => pure []
  | step :: steps => do
      let step ← walkTermStep step
      let steps ← walkTermSteps steps
      pure (step :: steps)

/-- Interprets a step of a term. -/
def walkTermStep : TermStep → Handled σ (MultiplicativeOperator × Operand φ)
  | .mk operator _ factor => do
      let factor ← walkFactor factor
      pure (operator, factor)

/-- Interprets a factor, unless it is a variable. -/
def walkFactor : FactorTree → Handled σ (Operand φ)
  | .call span name first others => do
      I.enterCall name.text span
      let first ← walk first
      let others ← walkArguments others
      let value ← I.call name.text (first :: others) span
      pure (.value value)
  | .reference _ name => pure (.variable name.text name.span)
  | .constant literal => do
      let value ← I.constant literal.text literal.span
      pure (.value value)
  | .group inner => do
      let inside ← walk inner
      let value ← I.group inside inner.span
      pure (.value value)

/-- Interprets arguments in a row. -/
def walkArguments : List ExpressionTree → Handled σ (List ε)
  | [] => pure []
  | e :: es => do
      let e ← walk e
      let es ← walkArguments es
      pure (e :: es)

end

/-! ## Texts -/

/-- The parse tree of a text that nests at most `maxDepth` levels. -/
def parse (maxDepth : Nat) (source : String) : Except Fault ExpressionTree := do
  Nesting.check maxDepth source
  match Grammar.tree source with
  | .ok tree => .ok tree
  | .error f => .error (.ofFailure source f.offset f.expected)

/-- Interprets a text that nests at most `maxDepth` levels. -/
def run (maxDepth : Nat) (source : String) : Handled σ ε :=
  match parse maxDepth source with
  | .ok tree => I.walk tree
  | .error e => throw e

end Interpretation

end MetricFormula
