/-
  Proofs/Grammar/Reference: the variables of a formula, and where they are referred to.

  `references` finds them among the tokens alone: every name that no opening parenthesis
  follows.  A parse tree lists its own in the order of the text
  (`ExpressionTree.references`).  Those are the same (`ExpressionStands.references_eq`), and
  they are the variables of the sum that the tree stands for (`ExpressionTree.mem_names`).
-/
import MetricFormula.Proofs.Grammar.Place
import MetricFormula.Ast.Names

set_option autoImplicit false

namespace MetricFormula.Grammar

/-! ## Among the tokens -/

/-- The reference that a token is, if it is one. -/
def referenceAt? (p : PlacedToken) (ps : List PlacedToken) : Option Lexeme :=
  match p.token with
  | .name cs =>
      if (ps.map PlacedToken.token).head? = some (.symbol '(') then none
      else some ⟨String.ofList cs, p.span⟩
  | .literal _ => none
  | .symbol _ => none

/-- The references among tokens. -/
def references : List PlacedToken → List Lexeme
  | [] => []
  | p :: ps => (referenceAt? p ps).toList ++ references ps

section Tokens

variable {n : Nat} {c : Char} {l : Lexeme} {ps : List PlacedToken}

@[simp] theorem references_symbol : references (.symbol c n :: ps) = references ps := rfl

@[simp] theorem references_literal : references (.literal l :: ps) = references ps := rfl

theorem references_name (h : (ps.map PlacedToken.token).head? ≠ some (.symbol '(')) :
    references (.name l :: ps) = l :: references ps := by
  have hat : referenceAt? (.name l) ps = some ⟨String.ofList l.text.toList, l.span⟩ := if_neg h
  rw [references, hat, String.ofList_toList]
  rfl

/-- The name of a function is not a reference. -/
@[simp] theorem references_call :
    references (.name l :: .symbol '(' n :: ps) = references ps := rfl

end Tokens

/-! ## Of a parse tree -/

mutual

/-- The references in an expression. -/
def ExpressionTree.references : ExpressionTree → List Lexeme
  | .mk _ first steps => first.references ++ ExpressionTree.stepReferences steps

/-- The references in steps. -/
def ExpressionTree.stepReferences : List ExpressionStep → List Lexeme
  | [] => []
  | .mk _ _ term :: steps => term.references ++ ExpressionTree.stepReferences steps

/-- The references in a term. -/
def TermTree.references : TermTree → List Lexeme
  | .mk _ first steps => first.references ++ TermTree.stepReferences steps

/-- The references in steps. -/
def TermTree.stepReferences : List TermStep → List Lexeme
  | [] => []
  | .mk _ _ factor :: steps => factor.references ++ TermTree.stepReferences steps

/-- The references in a factor. -/
def FactorTree.references : FactorTree → List Lexeme
  | .call _ _ first others => first.references ++ ExpressionTree.argumentReferences others
  | .reference _ name => [name]
  | .constant _ => []
  | .group inner => inner.references

/-- The references in arguments. -/
def ExpressionTree.argumentReferences : List ExpressionTree → List Lexeme
  | [] => []
  | e :: es => e.references ++ ExpressionTree.argumentReferences es

end

/-! ## The tokens and the tree have the same references -/

mutual

theorem ExpressionStands.references_eq :
    ∀ {t : ExpressionTree} {n m : Nat} {ps qs : List PlacedToken},
      ExpressionStands n ps t m qs → references ps = t.references ++ references qs
  | .mk _ _ _, _, _, _, _, .mk hfirst hsteps => by
      rw [hfirst.references_eq, hsteps.references_eq, ExpressionTree.references, List.append_assoc]

theorem ExpressionStepsStand.references_eq :
    ∀ {steps : List ExpressionStep} {n m : Nat} {ps qs : List PlacedToken},
      ExpressionStepsStand n ps steps m qs →
      references ps = ExpressionTree.stepReferences steps ++ references qs
  | [], _, _, _, _, .nil _ => rfl
  | .mk _ _ _ :: _, _, _, _, _, .cons _ _ hterm hsteps => by
      rw [references_symbol, hterm.references_eq, hsteps.references_eq,
        ExpressionTree.stepReferences, List.append_assoc]

theorem TermStands.references_eq : ∀ {t : TermTree} {n m : Nat} {ps qs : List PlacedToken},
    TermStands n ps t m qs → references ps = t.references ++ references qs
  | .mk _ _ _, _, _, _, _, .mk hfirst hsteps => by
      rw [hfirst.references_eq, hsteps.references_eq, TermTree.references, List.append_assoc]

theorem TermStepsStand.references_eq :
    ∀ {steps : List TermStep} {n m : Nat} {ps qs : List PlacedToken},
      TermStepsStand n ps steps m qs →
      references ps = TermTree.stepReferences steps ++ references qs
  | [], _, _, _, _, .nil _ => rfl
  | .mk _ _ _ :: _, _, _, _, _, .cons _ _ hfactor hsteps => by
      rw [references_symbol, hfactor.references_eq, hsteps.references_eq,
        TermTree.stepReferences, List.append_assoc]

theorem FactorStands.references_eq :
    ∀ {x : FactorTree} {n m : Nat} {ps qs : List PlacedToken},
      FactorStands n ps x m qs → references ps = x.references ++ references qs
  | .call _ _ _ _, _, _, _, _, .call _ _ _ _ hfirst hothers _ => by
      rw [references_call, hfirst.references_eq, hothers.references_eq, references_symbol,
        FactorTree.references, List.append_assoc]
  | .reference _ _, _, _, _, _, .reference _ _ _ hhead => references_name hhead
  | .constant _, _, _, _, _, .constant _ _ _ => references_literal
  | .group _, _, _, _, _, .group _ hinner _ => by
      rw [references_symbol, hinner.references_eq, references_symbol, FactorTree.references]

theorem ArgumentsStand.references_eq :
    ∀ {es : List ExpressionTree} {n m : Nat} {ps qs : List PlacedToken},
      ArgumentsStand n ps es m qs →
      references ps = ExpressionTree.argumentReferences es ++ references qs
  | [], _, _, _, _, .nil _ => rfl
  | _ :: _, _, _, _, _, .cons _ _ he hes => by
      rw [references_symbol, he.references_eq, hes.references_eq,
        ExpressionTree.argumentReferences, List.append_assoc]

end

/-! ## The variables of what a tree stands for -/

mutual

/-- What an expression refers to are the variables of its sum, which lists them in another
order. -/
theorem ExpressionTree.mem_names {x : String} : ∀ t : ExpressionTree,
    x ∈ t.phrase.sum.names ↔ x ∈ t.references.map Lexeme.text
  | .mk _ first steps => by
      rw [ExpressionTree.phrase, ExpressionPhrase.sum, Sum.names, Product.namesOf,
        ExpressionTree.references, List.mem_append, List.mem_append, List.map_append,
        List.mem_append, first.mem_names, ← ExpressionTree.mem_stepNames steps, or_assoc]

theorem ExpressionTree.mem_stepNames {x : String} : ∀ steps : List ExpressionStep,
    x ∈ Product.namesOf (ExpressionPhrase.added (ExpressionTree.stepPhrases steps)) ∨
        x ∈ Product.namesOf (ExpressionPhrase.subtracted (ExpressionTree.stepPhrases steps)) ↔
      x ∈ (ExpressionTree.stepReferences steps).map Lexeme.text
  | [] => or_self_iff
  | .mk operator _ term :: steps => by
      rw [ExpressionTree.stepReferences, List.map_append, List.mem_append, ← term.mem_names,
        ← ExpressionTree.mem_stepNames steps, ExpressionTree.stepPhrases]
      cases operator with
      | plus =>
          rw [ExpressionPhrase.added, ExpressionPhrase.subtracted, Product.namesOf,
            List.mem_append, or_assoc]
      | minus =>
          rw [ExpressionPhrase.added, ExpressionPhrase.subtracted, Product.namesOf,
            List.mem_append, or_left_comm]

theorem TermTree.mem_names {x : String} : ∀ t : TermTree,
    x ∈ t.phrase.product.names ↔ x ∈ t.references.map Lexeme.text
  | .mk _ first steps => by
      rw [TermTree.phrase, TermPhrase.product, Product.names, Factor.namesOf, TermTree.references,
        List.mem_append, List.mem_append, List.map_append, List.mem_append, first.mem_names,
        ← TermTree.mem_stepNames steps, or_assoc]

theorem TermTree.mem_stepNames {x : String} : ∀ steps : List TermStep,
    x ∈ Factor.namesOf (TermPhrase.multiplied (TermTree.stepPhrases steps)) ∨
        x ∈ Factor.namesOf (TermPhrase.divided (TermTree.stepPhrases steps)) ↔
      x ∈ (TermTree.stepReferences steps).map Lexeme.text
  | [] => or_self_iff
  | .mk operator _ factor :: steps => by
      rw [TermTree.stepReferences, List.map_append, List.mem_append, ← factor.mem_names,
        ← TermTree.mem_stepNames steps, TermTree.stepPhrases]
      cases operator with
      | times =>
          rw [TermPhrase.multiplied, TermPhrase.divided, Factor.namesOf, List.mem_append, or_assoc]
      | dividedBy =>
          rw [TermPhrase.multiplied, TermPhrase.divided, Factor.namesOf, List.mem_append,
            or_left_comm]

theorem FactorTree.mem_names {x : String} : ∀ f : FactorTree,
    x ∈ f.phrase.factor.names ↔ x ∈ f.references.map Lexeme.text
  | .call _ _ first others => by
      rw [FactorTree.phrase, FactorPhrase.factor, Factor.names, Sum.namesOf, FactorTree.references,
        List.map_append, List.mem_append, List.mem_append, first.mem_names,
        ExpressionTree.mem_argumentNames others]
  | .reference _ name => by
      rw [FactorTree.phrase, FactorPhrase.factor, Factor.names, FactorTree.references,
        List.map_singleton, String.ofList_toList]
  | .constant _ => Iff.rfl
  | .group inner => inner.mem_names

theorem ExpressionTree.mem_argumentNames {x : String} : ∀ es : List ExpressionTree,
    x ∈ Sum.namesOf (ExpressionPhrase.sums (ExpressionTree.phrases es)) ↔
      x ∈ (ExpressionTree.argumentReferences es).map Lexeme.text
  | [] => Iff.rfl
  | e :: es => by
      rw [ExpressionTree.phrases, ExpressionPhrase.sums, Sum.namesOf,
        ExpressionTree.argumentReferences, List.map_append, List.mem_append, List.mem_append,
        e.mem_names, ExpressionTree.mem_argumentNames es]

end

end MetricFormula.Grammar
