/-
  Grammar/Tree: parse trees of formulas.

  A tree keeps what the grammar distinguishes and where each part stands; it says
  nothing about what a part means.  An expression is a first term and the steps
  after it, a term is a first factor and the steps after it, a call has a first
  argument and the arguments after it: no list that the grammar fills can be
  empty.
-/
import MetricFormula.Grammar.Rule
import MetricFormula.Grammar.Lexeme

set_option autoImplicit false

namespace MetricFormula.Grammar

/-! ## Operators -/

/-- The operators between terms. -/
inductive AdditiveOperator where
  | plus
  | minus
  deriving DecidableEq, Repr

/-- The operators between factors. -/
inductive MultiplicativeOperator where
  | times
  | dividedBy
  deriving DecidableEq, Repr

namespace AdditiveOperator

/-- The character that stands for an operator. -/
def symbol : AdditiveOperator → Char
  | plus => '+'
  | minus => '-'

/-- The rule that matches an operator. -/
def rule : AdditiveOperator → Rule
  | plus => .add
  | minus => .sub

end AdditiveOperator

namespace MultiplicativeOperator

/-- The character that stands for an operator. -/
def symbol : MultiplicativeOperator → Char
  | times => '*'
  | dividedBy => '/'

/-- The rule that matches an operator. -/
def rule : MultiplicativeOperator → Rule
  | times => .mul
  | dividedBy => .div

end MultiplicativeOperator

/-! ## Trees -/

mutual

/-- A first term and the steps after it. -/
inductive ExpressionTree where
  | mk (span : Span) (first : TermTree) (steps : List ExpressionStep)

/-- An operator between terms, the offset at which it stands, and the next term. -/
inductive ExpressionStep where
  | mk (operator : AdditiveOperator) (place : Nat) (term : TermTree)

/-- A first factor and the steps after it. -/
inductive TermTree where
  | mk (span : Span) (first : FactorTree) (steps : List TermStep)

/-- An operator between factors, the offset at which it stands, and the next
factor. -/
inductive TermStep where
  | mk (operator : MultiplicativeOperator) (place : Nat) (factor : FactorTree)

/-- A call, a reference to a variable, a constant, or an expression in
parentheses. -/
inductive FactorTree where
  | call (span : Span) (name : Lexeme) (first : ExpressionTree) (others : List ExpressionTree)
  | reference (span : Span) (name : Lexeme)
  | constant (literal : Lexeme)
  | group (inner : ExpressionTree)

end

namespace ExpressionTree

/-- Where an expression stands. -/
def span : ExpressionTree → Span
  | mk span _ _ => span

end ExpressionTree

/-! ## Outlines

The outline of a tree says which rule matched which range, from the outside in.
The rules `factor`, `grouped`, `exponent` and `blank` leave no outline of their own. -/

/-- A rule, the range it matched, and the outlines of its parts. -/
inductive Outline where
  | mk (rule : Rule) (span : Span) (parts : List Outline)

namespace Lexeme

/-- The outline of a word. -/
def outline (rule : Rule) (l : Lexeme) : Outline := .mk rule l.span []

end Lexeme

mutual

/-- The outline of an expression. -/
def ExpressionTree.outline : ExpressionTree → Outline
  | .mk span first steps =>
      .mk .expression span (first.outline :: ExpressionTree.stepOutlines steps)

/-- The outlines of the steps of an expression. -/
def ExpressionTree.stepOutlines : List ExpressionStep → List Outline
  | [] => []
  | step :: steps => step.outlines ++ ExpressionTree.stepOutlines steps

/-- The outline of the operator and that of the term. -/
def ExpressionStep.outlines : ExpressionStep → List Outline
  | .mk operator place term => [.mk operator.rule ⟨place, place + 1⟩ [], term.outline]

/-- The outline of a term. -/
def TermTree.outline : TermTree → Outline
  | .mk span first steps => .mk .term span (first.outline :: TermTree.stepOutlines steps)

/-- The outlines of the steps of a term. -/
def TermTree.stepOutlines : List TermStep → List Outline
  | [] => []
  | step :: steps => step.outlines ++ TermTree.stepOutlines steps

/-- The outline of the operator and that of the factor. -/
def TermStep.outlines : TermStep → List Outline
  | .mk operator place factor => [.mk operator.rule ⟨place, place + 1⟩ [], factor.outline]

/-- The outline of a factor; a group shows the expression inside it. -/
def FactorTree.outline : FactorTree → Outline
  | .call span name first others =>
      .mk .call span (name.outline .identifier :: first.outline :: ExpressionTree.outlines others)
  | .reference span name => .mk .reference span [name.outline .identifier]
  | .constant literal => literal.outline .constant
  | .group inner => inner.outline

/-- The outlines of expressions in a row. -/
def ExpressionTree.outlines : List ExpressionTree → List Outline
  | [] => []
  | e :: es => e.outline :: ExpressionTree.outlines es

end

end MetricFormula.Grammar
