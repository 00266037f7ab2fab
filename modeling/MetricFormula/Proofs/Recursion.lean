/-
  Proofs/Recursion: a text that passes the look over its parentheses recurses no deeper than
  the limit.

  The matchers and the walk are recursive in one place, where an expression stands inside
  parentheses.  If the look over a text finds no more than `maxDepth` levels, then
  `max maxDepth 1` levels of expressions are enough to match it, be it a formula or not, and
  to interpret its parse tree (`check_bounds_expressions`): the level below is never
  started, since anything at all may stand there.  For a matcher that covers the branches that are
  given back, since they leave their mark on the frontier.
-/
import MetricFormula.Proofs.Grammar.Level
import MetricFormula.Proofs.Grammar.Sound
import MetricFormula.Proofs.Interpretation.Level
import MetricFormula.Interpretation.Acceptance
import Mathlib.Control.Monad.Basic

set_option autoImplicit false

namespace MetricFormula

open MetricFormula.Grammar

/-- A text that passes has room from its start on.  If nothing may be nested at all, it has
no parentheses, and then there is one level as well. -/
theorem Nesting.room_of_check {maxDepth : Nat} {source : String}
    (h : check maxDepth source = .ok ()) :
    Room (max maxDepth 1) 0 (Cursor.ofString source) where
  lt := by omega
  fits := by
    unfold check at h
    split at h
    · simp at h
    · rename_i hnone
      exact excess?_mono hnone (Nat.le_max_left maxDepth 1)

/-- If a text passes the look over its parentheses, matching it never has more than
`max maxDepth 1` expressions open at once, and neither has any interpretation of its parse
tree: with so many levels they do what they do without a bound, whatever is put in the
place of the levels below. -/
theorem check_bounds_expressions {maxDepth : Nat} {source : String}
    (h : Nesting.check maxDepth source = .ok ()) :
    (∀ (bottom : Matcher ExpressionTree) (f : Frontier),
      (formulaOver (expressionWithin bottom (max maxDepth 1))).run (Cursor.ofString source) f =
        formula.run (Cursor.ofString source) f) ∧
    ∀ t, Grammar.tree source = .ok t →
      ∀ {σ ε τ φ : Type} (I : Interpretation σ ε τ φ) (bottom : ExpressionTree → Handled σ ε),
        I.walkWithin bottom (max maxDepth 1) t = I.walk t := by
  constructor
  · intro bottom f
    have halike : Alike (max maxDepth 1) 0 0 _ (formulaOver expression) :=
      formulaOver_alike (expression_alike bottom)
    rw [formula]
    exact halike.run (Nesting.room_of_check h) f
  · intro t ht σ ε τ φ I bottom
    obtain ⟨ts, hcut, hsentence⟩ := tree_sound ht
    have hdepth := (Nesting.check_eq_ok_iff hcut hsentence).mp h
    exact I.walkWithin_eq bottom (by omega)

/-- A text that is no formula, and one that is; both nest three levels. -/
theorem check_bounds_expressions_three :
    Nesting.check 3 "f((x), y + (" = .ok () ∧
      (∀ (bottom : Matcher ExpressionTree) (f : Frontier),
        (formulaOver (expressionWithin bottom 3)).run (Cursor.ofString "f((x), y + (") f =
          formula.run (Cursor.ofString "f((x), y + (") f) ∧
    Nesting.check 3 "f((x), y)" = .ok () ∧
      ∃ t, Grammar.tree "f((x), y)" = .ok t ∧
        ∀ bottom : ExpressionTree → Handled Unit Unit,
          Interpretation.acceptance.walkWithin bottom 3 t = Interpretation.acceptance.walk t := by
  have hmalformed : Nesting.check 3 "f((x), y + (" = .ok () := by decide +kernel
  have hformula : Nesting.check 3 "f((x), y)" = .ok () := by decide +kernel
  have htree : (Grammar.tree "f((x), y)").isOk = true := by decide +kernel
  refine ⟨hmalformed, (check_bounds_expressions hmalformed).1, hformula, ?_⟩
  cases ht : Grammar.tree "f((x), y)" with
  | error frontier => simp [ht, Except.isOk, Except.toBool] at htree
  | ok t => exact ⟨t, rfl, (check_bounds_expressions hformula).2 t ht Interpretation.acceptance⟩

end MetricFormula
