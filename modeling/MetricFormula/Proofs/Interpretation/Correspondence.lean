/-
  Proofs/Interpretation/Correspondence: two interpretations side by side.

  A walk does nothing with the values that the handlers return but pass them on, so what
  relates the handlers of two interpretations relates their walks.  `Correspondence` is any
  relation between steps, with a view of the values of one as values of the other, that is
  closed under `pure` and `bind`.  If every handler does its part (`Corresponds`), so do the
  walks over any tree (`walk_corresponds`).

  `mirroring` is the simplest one: the second interpretation does what is seen of the first.
-/
import MetricFormula.Proofs.Interpretation.Outcome

set_option autoImplicit false

namespace MetricFormula

open MetricFormula.Grammar

/-- An operand with its value seen as another one. -/
def Operand.map {φ ψ : Type} (view : φ → ψ) : Operand φ → Operand ψ
  | .value x => .value (view x)
  | .variable name span => .variable name span

/-- A relation between steps of two interpretations, for each view of the results of the
first as results of the second. -/
structure Correspondence (σ σ' : Type) where
  Holds : {α β : Type} → (α → β) → Handled σ α → Handled σ' β → Prop
  pure : ∀ {α β : Type} (view : α → β) (a : α), Holds view (pure a) (pure (view a))
  bind : ∀ {α β γ δ : Type} {view : α → β} {view' : γ → δ} {x : Handled σ α}
    {y : Handled σ' β} {k : α → Handled σ γ} {l : β → Handled σ' δ}, Holds view x y →
    (∀ a, Holds view' (k a) (l (view a))) → Holds view' (x >>= k) (y >>= l)

namespace Interpretation

variable {σ ε τ φ σ' ε' τ' φ' : Type}

/-- Two interpretations whose handlers correspond, given values that do. -/
structure Corresponds (C : Correspondence σ σ') (I : Interpretation σ ε τ φ)
    (J : Interpretation σ' ε' τ' φ') (onExpression : ε → ε') (onTerm : τ → τ')
    (onFactor : φ → φ') : Prop where
  expression : ∀ positive negative span,
    C.Holds onExpression (I.expression positive negative span)
      (J.expression (positive.map onTerm) (negative.map onTerm) span)
  term : ∀ numerator denominator span,
    C.Holds onTerm (I.term numerator denominator span)
      (J.term (numerator.map (·.map onFactor)) (denominator.map (·.map onFactor)) span)
  enterCall : ∀ name span, C.Holds id (I.enterCall name span) (J.enterCall name span)
  call : ∀ name arguments span,
    C.Holds onFactor (I.call name arguments span) (J.call name (arguments.map onExpression) span)
  constant : ∀ literal span, C.Holds onFactor (I.constant literal span) (J.constant literal span)
  group : ∀ inner span, C.Holds onFactor (I.group inner span) (J.group (onExpression inner) span)

section Walk

variable {C : Correspondence σ σ'} {I : Interpretation σ ε τ φ}
  {J : Interpretation σ' ε' τ' φ'} {onExpression : ε → ε'} {onTerm : τ → τ'}
  {onFactor : φ → φ'}

mutual

/-- The walks of interpretations that correspond do. -/
theorem walk_corresponds (h : Corresponds C I J onExpression onTerm onFactor) :
    ∀ t : ExpressionTree, C.Holds onExpression (I.walk t) (J.walk t)
  | .mk span first steps => by
      refine C.bind (walkTerm_corresponds h first) fun x => ?_
      refine C.bind (walkSteps_corresponds h steps) fun xs => ?_
      rw [added_map, subtracted_map]
      exact h.expression (added x xs) (subtracted xs) span

theorem walkSteps_corresponds (h : Corresponds C I J onExpression onTerm onFactor) :
    ∀ steps : List ExpressionStep,
      C.Holds (List.map (Prod.map id onTerm)) (I.walkSteps steps) (J.walkSteps steps)
  | [] => C.pure _ []
  | step :: steps =>
      C.bind (walkStep_corresponds h step) fun x =>
        C.bind (walkSteps_corresponds h steps) fun xs => C.pure _ (x :: xs)

theorem walkStep_corresponds (h : Corresponds C I J onExpression onTerm onFactor) :
    ∀ step : ExpressionStep, C.Holds (Prod.map id onTerm) (I.walkStep step) (J.walkStep step)
  | .mk operator _ term =>
      C.bind (walkTerm_corresponds h term) fun x => C.pure (Prod.map id onTerm) (operator, x)

theorem walkTerm_corresponds (h : Corresponds C I J onExpression onTerm onFactor) :
    ∀ t : TermTree, C.Holds onTerm (I.walkTerm t) (J.walkTerm t)
  | .mk span first steps => by
      refine C.bind (walkFactor_corresponds h first) fun x => ?_
      refine C.bind (walkTermSteps_corresponds h steps) fun xs => ?_
      rw [multiplied_map, divided_map]
      exact h.term (multiplied x xs) (divided xs) span

theorem walkTermSteps_corresponds (h : Corresponds C I J onExpression onTerm onFactor) :
    ∀ steps : List TermStep,
      C.Holds (List.map (Prod.map id (Operand.map onFactor))) (I.walkTermSteps steps)
        (J.walkTermSteps steps)
  | [] => C.pure _ []
  | step :: steps =>
      C.bind (walkTermStep_corresponds h step) fun x =>
        C.bind (walkTermSteps_corresponds h steps) fun xs => C.pure _ (x :: xs)

theorem walkTermStep_corresponds (h : Corresponds C I J onExpression onTerm onFactor) :
    ∀ step : TermStep,
      C.Holds (Prod.map id (Operand.map onFactor)) (I.walkTermStep step) (J.walkTermStep step)
  | .mk operator _ factor =>
      C.bind (walkFactor_corresponds h factor) fun x =>
        C.pure (Prod.map id (Operand.map onFactor)) (operator, x)

theorem walkFactor_corresponds (h : Corresponds C I J onExpression onTerm onFactor) :
    ∀ x : FactorTree, C.Holds (Operand.map onFactor) (I.walkFactor x) (J.walkFactor x)
  | .call span name first others =>
      C.bind (h.enterCall name.text span) fun _ =>
        C.bind (walk_corresponds h first) fun a =>
          C.bind (walkArguments_corresponds h others) fun as =>
            C.bind (h.call name.text (a :: as) span) fun x =>
              C.pure (Operand.map onFactor) (.value x)
  | .reference _ name => C.pure (Operand.map onFactor) (.variable name.text name.span)
  | .constant literal =>
      C.bind (h.constant literal.text literal.span) fun x =>
        C.pure (Operand.map onFactor) (.value x)
  | .group inner =>
      C.bind (walk_corresponds h inner) fun e =>
        C.bind (h.group e inner.span) fun x => C.pure (Operand.map onFactor) (.value x)

theorem walkArguments_corresponds (h : Corresponds C I J onExpression onTerm onFactor) :
    ∀ es : List ExpressionTree,
      C.Holds (List.map onExpression) (I.walkArguments es) (J.walkArguments es)
  | [] => C.pure _ []
  | e :: es =>
      C.bind (walk_corresponds h e) fun a =>
        C.bind (walkArguments_corresponds h es) fun as => C.pure _ (a :: as)

end

end Walk

end Interpretation

/-! ## Doing what is seen of another one -/

namespace Handled

variable {σ σ' α β : Type}

/-- From the state that is seen, `y` does what is seen of `x`. -/
def Mirrors (state : σ → σ') (view : α → β) (x : Handled σ α) (y : Handled σ' β) : Prop :=
  ∀ s, y.runFrom (state s) = ((x.runFrom s).1.map view, state (x.runFrom s).2)

end Handled

/-- One interpretation does what is seen of another one. -/
def Correspondence.mirroring {σ σ' : Type} (state : σ → σ') : Correspondence σ σ' where
  Holds := Handled.Mirrors state
  pure _ _ _ := rfl
  bind := by
    intro α β γ δ view view' x y k l hx hk s
    rw [Handled.runFrom_bind, Handled.runFrom_bind, hx s]
    rcases x.runFrom s with ⟨e | a, s'⟩
    · rfl
    · exact hk a s'

end MetricFormula
