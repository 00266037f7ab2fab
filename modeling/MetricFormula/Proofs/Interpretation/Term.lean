/-
  Proofs/Interpretation/Term: the terms that a walk reduces.

  A walk that comes to a result has reduced every term of the tree, those inside groups and
  arguments as well (`walk_terms`).
-/
import MetricFormula.Proofs.Interpretation.Outcome

set_option autoImplicit false

namespace MetricFormula

open MetricFormula.Grammar

mutual

/-- The terms of an expression. -/
def Grammar.ExpressionTree.terms : ExpressionTree → List TermTree
  | .mk _ first steps => first.terms ++ ExpressionTree.stepTerms steps

/-- The terms of steps. -/
def Grammar.ExpressionTree.stepTerms : List ExpressionStep → List TermTree
  | [] => []
  | .mk _ _ term :: steps => term.terms ++ ExpressionTree.stepTerms steps

/-- A term and the terms inside it. -/
def Grammar.TermTree.terms : TermTree → List TermTree
  | .mk span first steps => .mk span first steps :: (first.terms ++ TermTree.stepTerms steps)

/-- The terms of steps. -/
def Grammar.TermTree.stepTerms : List TermStep → List TermTree
  | [] => []
  | .mk _ _ factor :: steps => factor.terms ++ TermTree.stepTerms steps

/-- The terms of a factor. -/
def Grammar.FactorTree.terms : FactorTree → List TermTree
  | .call _ _ first others => first.terms ++ ExpressionTree.argumentTerms others
  | .reference _ _ => []
  | .constant _ => []
  | .group inner => inner.terms

/-- The terms of arguments. -/
def Grammar.ExpressionTree.argumentTerms : List ExpressionTree → List TermTree
  | [] => []
  | e :: es => e.terms ++ ExpressionTree.argumentTerms es

end

namespace Interpretation

open Handled

variable {ε τ φ : Type} {I : Interpretation Unit ε τ φ}

/-- The term comes to a result. -/
def Reduces (I : Interpretation Unit ε τ φ) (u : TermTree) : Prop :=
  ∃ x, (I.walkTerm u).outcome = .ok x

mutual

/-- If an expression comes to a result, so does every term in it. -/
theorem walk_terms : ∀ {t : ExpressionTree} {v : ε}, (I.walk t).outcome = .ok v →
    ∀ u ∈ t.terms, I.Reduces u
  | .mk _ _ _, _, h => by
      obtain ⟨a, hfirst, h⟩ := outcome_bind_eq_ok.mp h
      obtain ⟨as, hsteps, -⟩ := outcome_bind_eq_ok.mp h
      exact List.forall_mem_append.mpr ⟨walkTerm_terms hfirst, walkSteps_terms hsteps⟩

theorem walkSteps_terms : ∀ {steps : List ExpressionStep} {as : List (AdditiveOperator × τ)},
    (I.walkSteps steps).outcome = .ok as →
    ∀ u ∈ ExpressionTree.stepTerms steps, I.Reduces u
  | [], _, _ => by simp [ExpressionTree.stepTerms]
  | .mk _ _ _ :: _, _, h => by
      obtain ⟨s, hstep, h⟩ := outcome_bind_eq_ok.mp h
      obtain ⟨a, hterm, -⟩ := outcome_bind_eq_ok.mp hstep
      obtain ⟨as, hsteps, -⟩ := outcome_bind_eq_ok.mp h
      exact List.forall_mem_append.mpr ⟨walkTerm_terms hterm, walkSteps_terms hsteps⟩

theorem walkTerm_terms : ∀ {t : TermTree} {x : τ}, (I.walkTerm t).outcome = .ok x →
    ∀ u ∈ t.terms, I.Reduces u
  | .mk _ _ _, x, h => by
      obtain ⟨a, hfirst, hrest⟩ := outcome_bind_eq_ok.mp h
      obtain ⟨as, hsteps, -⟩ := outcome_bind_eq_ok.mp hrest
      exact List.forall_mem_cons.mpr ⟨⟨x, h⟩,
        List.forall_mem_append.mpr ⟨walkFactor_terms hfirst, walkTermSteps_terms hsteps⟩⟩

theorem walkTermSteps_terms :
    ∀ {steps : List TermStep} {as : List (MultiplicativeOperator × Operand φ)},
      (I.walkTermSteps steps).outcome = .ok as →
      ∀ u ∈ TermTree.stepTerms steps, I.Reduces u
  | [], _, _ => by simp [TermTree.stepTerms]
  | .mk _ _ _ :: _, _, h => by
      obtain ⟨s, hstep, h⟩ := outcome_bind_eq_ok.mp h
      obtain ⟨a, hfactor, -⟩ := outcome_bind_eq_ok.mp hstep
      obtain ⟨as, hsteps, -⟩ := outcome_bind_eq_ok.mp h
      exact List.forall_mem_append.mpr ⟨walkFactor_terms hfactor, walkTermSteps_terms hsteps⟩

theorem walkFactor_terms : ∀ {x : FactorTree} {a : Operand φ},
    (I.walkFactor x).outcome = .ok a → ∀ u ∈ x.terms, I.Reduces u
  | .call _ _ _ _, _, h => by
      obtain ⟨_, -, h⟩ := outcome_bind_eq_ok.mp h
      obtain ⟨e, hfirst, h⟩ := outcome_bind_eq_ok.mp h
      obtain ⟨es, hothers, -⟩ := outcome_bind_eq_ok.mp h
      exact List.forall_mem_append.mpr ⟨walk_terms hfirst, walkArguments_terms hothers⟩
  | .reference _ _, _, _ => by simp [FactorTree.terms]
  | .constant _, _, _ => by simp [FactorTree.terms]
  | .group _, _, h => by
      obtain ⟨e, hinner, -⟩ := outcome_bind_eq_ok.mp h
      exact walk_terms hinner

theorem walkArguments_terms : ∀ {es : List ExpressionTree} {as : List ε},
    (I.walkArguments es).outcome = .ok as →
    ∀ u ∈ ExpressionTree.argumentTerms es, I.Reduces u
  | [], _, _ => by simp [ExpressionTree.argumentTerms]
  | _ :: _, _, h => by
      obtain ⟨e, he, h⟩ := outcome_bind_eq_ok.mp h
      obtain ⟨es, hes, -⟩ := outcome_bind_eq_ok.mp h
      exact List.forall_mem_append.mpr ⟨walk_terms he, walkArguments_terms hes⟩

end

end Interpretation

end MetricFormula
