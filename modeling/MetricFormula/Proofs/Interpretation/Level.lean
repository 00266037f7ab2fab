/-
  Proofs/Interpretation/Level: how many expressions a walk is inside of at once.

  A walk enters an expression for the whole formula, for every group and for every argument.
  `walkOver inner` is one such level, written over `inner` for the expressions one level
  further in, and `walkWithin bottom n` nests `n` levels.  A tree of some depth takes one level
  more than its depth; what stands below the last level is never started
  (`walkWithin_eq`).
-/
import MetricFormula.Interpretation.Basic
import MetricFormula.Proofs.Grammar.Phrase

set_option autoImplicit false

namespace MetricFormula.Interpretation

open MetricFormula.Grammar

variable {σ ε τ φ : Type} (I : Interpretation σ ε τ φ)

/-! ## One level -/

section Over

variable (inner : ExpressionTree → Handled σ ε)

/-- Interprets arguments in a row. -/
def walkArgumentsOver : List ExpressionTree → Handled σ (List ε)
  | [] => pure []
  | e :: es => do
      let e ← inner e
      let es ← walkArgumentsOver es
      pure (e :: es)

/-- Interprets a factor, unless it is a variable. -/
def walkFactorOver : FactorTree → Handled σ (Operand φ)
  | .call span name first others => do
      I.enterCall name.text span
      let first ← inner first
      let others ← walkArgumentsOver inner others
      let value ← I.call name.text (first :: others) span
      pure (.value value)
  | .reference _ name => pure (.variable name.text name.span)
  | .constant literal => do
      let value ← I.constant literal.text literal.span
      pure (.value value)
  | .group e => do
      let inside ← inner e
      let value ← I.group inside e.span
      pure (.value value)

/-- Interprets the steps of a term. -/
def walkTermStepsOver : List TermStep → Handled σ (List (MultiplicativeOperator × Operand φ))
  | [] => pure []
  | .mk operator _ factor :: steps => do
      let x ← I.walkFactorOver inner factor
      let steps ← walkTermStepsOver steps
      pure ((operator, x) :: steps)

/-- Interprets a term. -/
def walkTermOver : TermTree → Handled σ τ
  | .mk span first steps => do
      let first ← I.walkFactorOver inner first
      let steps ← I.walkTermStepsOver inner steps
      I.term (multiplied first steps) (divided steps) span

/-- Interprets the steps of an expression. -/
def walkStepsOver : List ExpressionStep → Handled σ (List (AdditiveOperator × τ))
  | [] => pure []
  | .mk operator _ term :: steps => do
      let x ← I.walkTermOver inner term
      let steps ← walkStepsOver steps
      pure ((operator, x) :: steps)

/-- Interprets an expression, with `inner` for the expressions one level further in. -/
def walkOver : ExpressionTree → Handled σ ε
  | .mk span first steps => do
      let first ← I.walkTermOver inner first
      let steps ← I.walkStepsOver inner steps
      I.expression (added first steps) (subtracted steps) span

end Over

/-- Interprets an expression of at most `n` levels, over an interpretation of what lies
below. -/
def walkWithin (bottom : ExpressionTree → Handled σ ε) : Nat → ExpressionTree → Handled σ ε
  | 0 => bottom
  | n + 1 => I.walkOver (walkWithin bottom n)

/-! ## Enough levels -/

section Level

variable {I} {inner : ExpressionTree → Handled σ ε} {n : Nat}
  (hinner : ∀ e : ExpressionTree, e.phrase.depth < n → inner e = I.walk e)
include hinner

theorem walkArgumentsOver_eq : ∀ {es : List ExpressionTree},
    ExpressionPhrase.depths (ExpressionTree.phrases es) < n →
    walkArgumentsOver inner es = I.walkArguments es
  | [], _ => rfl
  | e :: es, h => by
      rw [ExpressionTree.phrases, ExpressionPhrase.depths] at h
      rw [walkArgumentsOver, walkArguments, hinner e (by omega), walkArgumentsOver_eq (by omega)]

theorem walkFactorOver_eq {x : FactorTree} (h : x.phrase.depth < n + 1) :
    I.walkFactorOver inner x = I.walkFactor x := by
  cases x with
  | reference span name => rfl
  | constant literal => rfl
  | group e =>
      rw [FactorTree.phrase, FactorPhrase.depth] at h
      rw [walkFactorOver, walkFactor, hinner e (by omega)]
  | call span name first others =>
      rw [FactorTree.phrase, FactorPhrase.depth] at h
      rw [walkFactorOver, walkFactor, hinner first (by omega),
        walkArgumentsOver_eq hinner (by omega)]

theorem walkTermStepsOver_eq : ∀ {steps : List TermStep},
    TermPhrase.stepsDepth (TermTree.stepPhrases steps) < n + 1 →
    I.walkTermStepsOver inner steps = I.walkTermSteps steps
  | [], _ => rfl
  | .mk operator place factor :: steps, h => by
      rw [TermTree.stepPhrases, TermPhrase.stepsDepth] at h
      rw [walkTermStepsOver, walkTermSteps, walkTermStep, walkFactorOver_eq hinner (by omega),
        walkTermStepsOver_eq (by omega), bind_assoc]
      simp only [pure_bind]

theorem walkTermOver_eq {t : TermTree} (h : t.phrase.depth < n + 1) :
    I.walkTermOver inner t = I.walkTerm t := by
  obtain ⟨span, first, steps⟩ := t
  rw [TermTree.phrase, TermPhrase.depth] at h
  rw [walkTermOver, walkTerm, walkFactorOver_eq hinner (by omega),
    walkTermStepsOver_eq hinner (by omega)]

theorem walkStepsOver_eq : ∀ {steps : List ExpressionStep},
    ExpressionPhrase.stepsDepth (ExpressionTree.stepPhrases steps) < n + 1 →
    I.walkStepsOver inner steps = I.walkSteps steps
  | [], _ => rfl
  | .mk operator place term :: steps, h => by
      rw [ExpressionTree.stepPhrases, ExpressionPhrase.stepsDepth] at h
      rw [walkStepsOver, walkSteps, walkStep, walkTermOver_eq hinner (by omega),
        walkStepsOver_eq (by omega), bind_assoc]
      simp only [pure_bind]

/-- One level is that of the walk if the levels further in are. -/
theorem walkOver_eq {t : ExpressionTree} (h : t.phrase.depth < n + 1) :
    I.walkOver inner t = I.walk t := by
  obtain ⟨span, first, steps⟩ := t
  rw [ExpressionTree.phrase, ExpressionPhrase.depth] at h
  rw [walkOver, walk, walkTermOver_eq hinner (by omega), walkStepsOver_eq hinner (by omega)]

end Level

/-- A walk over a tree takes no more levels than one for each level of its depth and one for
the whole. -/
theorem walkWithin_eq (bottom : ExpressionTree → Handled σ ε) {n : Nat} {t : ExpressionTree}
    (h : t.phrase.depth < n) : I.walkWithin bottom n t = I.walk t := by
  induction n generalizing t with
  | zero => exact absurd h (Nat.not_lt_zero _)
  | succ n ih => exact walkOver_eq (fun e he => ih he) h

end MetricFormula.Interpretation
