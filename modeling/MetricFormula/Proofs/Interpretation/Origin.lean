/-
  Proofs/Interpretation/Origin: where the fault of a walk comes from.

  A walk fails because one of its handlers does.  `Raises I p e` says that the handler for
  the part `p` fails with `e`, in a state in which a walk has left what is inside the part, if
  the handler comes after it.  Every fault of a walk is raised by a part of the tree
  (`walk_raises`).
-/
import MetricFormula.Interpretation.Basic
import MetricFormula.Proofs.Grammar.Part

set_option autoImplicit false

namespace MetricFormula

open MetricFormula.Grammar

namespace Handled

variable {σ α β : Type} {x : Handled σ α} {k : α → Handled σ β} {s : σ} {e : Fault}

/-- A step and then another one fail if the first one fails or the second one does after
it. -/
theorem runFrom_bind_eq_error : ((x >>= k).runFrom s).1 = .error e ↔
    (x.runFrom s).1 = .error e ∨
      ∃ a s', x.runFrom s = (.ok a, s') ∧ ((k a).runFrom s').1 = .error e := by
  rw [runFrom_bind]
  rcases x.runFrom s with ⟨e' | a, s'⟩
  · simp
  · simp only [reduceCtorEq, false_or, Prod.mk.injEq, Except.ok.injEq]
    constructor
    · intro h
      exact ⟨a, s', ⟨rfl, rfl⟩, h⟩
    · rintro ⟨_, _, ⟨rfl, rfl⟩, h⟩
      exact h

/-- A step whose result is only rearranged. -/
theorem runFrom_map_eq_error {f : α → β} :
    ((x >>= fun a => pure (f a)).runFrom s).1 = .error e ↔ (x.runFrom s).1 = .error e := by
  rw [runFrom_bind_eq_error]
  simp

end Handled

namespace Interpretation

open Handled

variable {σ ε τ φ : Type}

/-- The handler for a part fails, in a state in which a walk comes to it. -/
inductive Raises (I : Interpretation σ ε τ φ) : Part → Fault → Prop
  | expression {span : Span} {first : TermTree} {steps : List ExpressionStep} {x : τ}
      {xs : List (AdditiveOperator × τ)} {s s' s'' : σ} {e : Fault} :
      (I.walkTerm first).runFrom s = (.ok x, s') →
      (I.walkSteps steps).runFrom s' = (.ok xs, s'') →
      ((I.expression (added x xs) (subtracted xs) span).runFrom s'').1 = .error e →
      Raises I (.expression (.mk span first steps)) e
  | term {span : Span} {first : FactorTree} {steps : List TermStep} {x : Operand φ}
      {xs : List (MultiplicativeOperator × Operand φ)} {s s' s'' : σ} {e : Fault} :
      (I.walkFactor first).runFrom s = (.ok x, s') →
      (I.walkTermSteps steps).runFrom s' = (.ok xs, s'') →
      ((I.term (multiplied x xs) (divided xs) span).runFrom s'').1 = .error e →
      Raises I (.term (.mk span first steps)) e
  | enterCall {span : Span} {name : Lexeme} {first : ExpressionTree}
      {others : List ExpressionTree} {s : σ} {e : Fault} :
      ((I.enterCall name.text span).runFrom s).1 = .error e →
      Raises I (.factor (.call span name first others)) e
  | call {span : Span} {name : Lexeme} {first : ExpressionTree} {others : List ExpressionTree}
      {x : ε} {xs : List ε} {s s' s'' : σ} {e : Fault} :
      (I.walk first).runFrom s = (.ok x, s') →
      (I.walkArguments others).runFrom s' = (.ok xs, s'') →
      ((I.call name.text (x :: xs) span).runFrom s'').1 = .error e →
      Raises I (.factor (.call span name first others)) e
  | constant {literal : Lexeme} {s : σ} {e : Fault} :
      ((I.constant literal.text literal.span).runFrom s).1 = .error e →
      Raises I (.factor (.constant literal)) e
  | group {inner : ExpressionTree} {x : ε} {s s' : σ} {e : Fault} :
      (I.walk inner).runFrom s = (.ok x, s') →
      ((I.group x inner.span).runFrom s').1 = .error e → Raises I (.factor (.group inner)) e

/-- Some part of a list raises a fault. -/
def RaisedIn (I : Interpretation σ ε τ φ) (ps : List Part) (e : Fault) : Prop :=
  ∃ p ∈ ps, I.Raises p e

section Walk

variable {I : Interpretation σ ε τ φ} {e : Fault}

theorem RaisedIn.mono {ps qs : List Part} (h : I.RaisedIn ps e) (hsub : ∀ p ∈ ps, p ∈ qs) :
    I.RaisedIn qs e := by
  obtain ⟨p, hp, hraises⟩ := h
  exact ⟨p, hsub p hp, hraises⟩

mutual

/-- A walk fails with a fault that a part of the tree raises. -/
theorem walk_raises : ∀ {t : ExpressionTree} {s : σ}, ((I.walk t).runFrom s).1 = .error e →
    I.RaisedIn t.parts e
  | .mk _ _ _, _, h => by
      rcases runFrom_bind_eq_error.mp h with h | ⟨x, s', hx, h⟩
      · exact (walkTerm_raises h).mono (by grind [ExpressionTree.parts])
      rcases runFrom_bind_eq_error.mp h with h | ⟨xs, s'', hxs, h⟩
      · exact (walkSteps_raises h).mono (by grind [ExpressionTree.parts])
      · exact ⟨_, List.mem_cons_self, .expression hx hxs h⟩

theorem walkSteps_raises : ∀ {steps : List ExpressionStep} {s : σ},
    ((I.walkSteps steps).runFrom s).1 = .error e → I.RaisedIn (ExpressionTree.stepParts steps) e
  | [], _, h => by simp [walkSteps] at h
  | .mk _ _ _ :: _, _, h => by
      rcases runFrom_bind_eq_error.mp h with h | ⟨x, s', hx, h⟩
      · exact (walkTerm_raises (runFrom_map_eq_error.mp h)).mono
          (by grind [ExpressionTree.stepParts])
      · exact (walkSteps_raises (runFrom_map_eq_error.mp h)).mono
          (by grind [ExpressionTree.stepParts])

theorem walkTerm_raises : ∀ {t : TermTree} {s : σ}, ((I.walkTerm t).runFrom s).1 = .error e →
    I.RaisedIn t.parts e
  | .mk _ _ _, _, h => by
      rcases runFrom_bind_eq_error.mp h with h | ⟨x, s', hx, h⟩
      · exact (walkFactor_raises h).mono (by grind [TermTree.parts])
      rcases runFrom_bind_eq_error.mp h with h | ⟨xs, s'', hxs, h⟩
      · exact (walkTermSteps_raises h).mono (by grind [TermTree.parts])
      · exact ⟨_, List.mem_cons_self, .term hx hxs h⟩

theorem walkTermSteps_raises : ∀ {steps : List TermStep} {s : σ},
    ((I.walkTermSteps steps).runFrom s).1 = .error e → I.RaisedIn (TermTree.stepParts steps) e
  | [], _, h => by simp [walkTermSteps] at h
  | .mk _ _ _ :: _, _, h => by
      rcases runFrom_bind_eq_error.mp h with h | ⟨x, s', hx, h⟩
      · exact (walkFactor_raises (runFrom_map_eq_error.mp h)).mono (by grind [TermTree.stepParts])
      · exact (walkTermSteps_raises (runFrom_map_eq_error.mp h)).mono
          (by grind [TermTree.stepParts])

theorem walkFactor_raises : ∀ {x : FactorTree} {s : σ},
    ((I.walkFactor x).runFrom s).1 = .error e → I.RaisedIn x.parts e
  | .call _ _ _ _, _, h => by
      rcases runFrom_bind_eq_error.mp h with h | ⟨_, s', -, h⟩
      · exact ⟨_, List.mem_cons_self, .enterCall h⟩
      rcases runFrom_bind_eq_error.mp h with h | ⟨x, s'', hx, h⟩
      · exact (walk_raises h).mono (by grind [FactorTree.parts])
      rcases runFrom_bind_eq_error.mp h with h | ⟨xs, s₃, hxs, h⟩
      · exact (walkArguments_raises h).mono (by grind [FactorTree.parts])
      · exact ⟨_, List.mem_cons_self, .call hx hxs (runFrom_map_eq_error.mp h)⟩
  | .reference _ _, _, h => by simp [walkFactor] at h
  | .constant _, _, h =>
      ⟨_, List.mem_cons_self, .constant (runFrom_map_eq_error.mp h)⟩
  | .group _, _, h => by
      rcases runFrom_bind_eq_error.mp h with h | ⟨x, s', hx, h⟩
      · exact (walk_raises h).mono (by grind [FactorTree.parts])
      · exact ⟨_, List.mem_cons_self, .group hx (runFrom_map_eq_error.mp h)⟩

theorem walkArguments_raises : ∀ {es : List ExpressionTree} {s : σ},
    ((I.walkArguments es).runFrom s).1 = .error e → I.RaisedIn (ExpressionTree.argumentParts es) e
  | [], _, h => by simp [walkArguments] at h
  | _ :: _, _, h => by
      rcases runFrom_bind_eq_error.mp h with h | ⟨x, s', hx, h⟩
      · exact (walk_raises h).mono (by grind [ExpressionTree.argumentParts])
      · exact (walkArguments_raises (runFrom_map_eq_error.mp h)).mono
          (by grind [ExpressionTree.argumentParts])

end

/-! ## A part alone -/

/-- An expression that is one term fails as the term does. -/
theorem walk_term_eq_error {span : Span} {t : TermTree} {s : σ}
    (h : ((I.walkTerm t).runFrom s).1 = .error e) :
    ((I.walk (.mk span t [])).runFrom s).1 = .error e :=
  runFrom_bind_eq_error.mpr (Or.inl h)

/-- An expression that is one factor fails as the factor does. -/
theorem walk_factor_eq_error {span span' : Span} {x : FactorTree} {s : σ}
    (h : ((I.walkFactor x).runFrom s).1 = .error e) :
    ((I.walk (.mk span (.mk span' x []) [])).runFrom s).1 = .error e :=
  walk_term_eq_error (runFrom_bind_eq_error.mpr (Or.inl h))

/-! ## Texts -/

/-- A text is not interpreted if it has no parse tree, or if the walk over its tree fails. -/
theorem run_eq_error {maxDepth : Nat} {source : String} {s : σ} :
    ((I.run maxDepth source).runFrom s).1 = .error e ↔
      parse maxDepth source = .error e ∨
        ∃ t, parse maxDepth source = .ok t ∧ ((I.walk t).runFrom s).1 = .error e := by
  unfold run
  cases parse maxDepth source with
  | error e' => simp
  | ok t => simp

end Walk

end Interpretation

end MetricFormula
