/-
  Proofs/Grammar/Phrase: the context-free grammar of formulas, over tokens.

      expression  = term {("+" | "-") term}
      term        = factor {("*" | "/") factor}
      factor      = name "(" expression {"," expression} ")"
                  | name, not followed by "("
                  | literal
                  | "(" expression ")"

  A phrase is a derivation tree of this grammar.  `IsExpression ts e us` says that the
  tokens `ts` begin with the phrase `e` and that `us` is what follows it, and likewise
  for the other kinds of phrases.

  Beside its tokens a phrase has a depth, the literals and the called names in it, and
  the sum that it stands for.
-/
import MetricFormula.Proofs.Grammar.Token
import MetricFormula.Grammar.Tree
import MetricFormula.Ast.Basic
import MetricFormula.Decimal.Reader

set_option autoImplicit false

namespace MetricFormula.Grammar

/-! ## Derivation trees -/

mutual

/-- A first term and the steps after it. -/
inductive ExpressionPhrase where
  | mk (first : TermPhrase) (steps : List ExpressionPhraseStep)

/-- An operator between terms and the next term. -/
inductive ExpressionPhraseStep where
  | mk (operator : AdditiveOperator) (term : TermPhrase)

/-- A first factor and the steps after it. -/
inductive TermPhrase where
  | mk (first : FactorPhrase) (steps : List TermPhraseStep)

/-- An operator between factors and the next factor. -/
inductive TermPhraseStep where
  | mk (operator : MultiplicativeOperator) (factor : FactorPhrase)

/-- A call, a reference to a variable, a constant, or an expression in
parentheses. -/
inductive FactorPhrase where
  | call (name : List Char) (first : ExpressionPhrase) (others : List ExpressionPhrase)
  | reference (name : List Char)
  | constant (literal : List Char)
  | group (inner : ExpressionPhrase)

end

/-! ## Parse trees without their places -/

mutual

/-- The derivation behind a parse tree. -/
def ExpressionTree.phrase : ExpressionTree → ExpressionPhrase
  | .mk _ first steps => .mk first.phrase (ExpressionTree.stepPhrases steps)

/-- The steps without their places. -/
def ExpressionTree.stepPhrases : List ExpressionStep → List ExpressionPhraseStep
  | [] => []
  | .mk operator _ term :: steps =>
      .mk operator term.phrase :: ExpressionTree.stepPhrases steps

/-- A term without its place. -/
def TermTree.phrase : TermTree → TermPhrase
  | .mk _ first steps => .mk first.phrase (TermTree.stepPhrases steps)

/-- The steps without their places. -/
def TermTree.stepPhrases : List TermStep → List TermPhraseStep
  | [] => []
  | .mk operator _ factor :: steps => .mk operator factor.phrase :: TermTree.stepPhrases steps

/-- A factor without its place. -/
def FactorTree.phrase : FactorTree → FactorPhrase
  | .call _ name first others =>
      .call name.text.toList first.phrase (ExpressionTree.phrases others)
  | .reference _ name => .reference name.text.toList
  | .constant literal => .constant literal.text.toList
  | .group inner => .group inner.phrase

/-- Arguments without their places. -/
def ExpressionTree.phrases : List ExpressionTree → List ExpressionPhrase
  | [] => []
  | e :: es => e.phrase :: ExpressionTree.phrases es

end

theorem ExpressionTree.length_stepPhrases (steps : List ExpressionStep) :
    (ExpressionTree.stepPhrases steps).length = steps.length := by
  induction steps with
  | nil => rfl
  | cons step steps ih =>
      cases step
      simp [ExpressionTree.stepPhrases, ih]

theorem TermTree.length_stepPhrases (steps : List TermStep) :
    (TermTree.stepPhrases steps).length = steps.length := by
  induction steps with
  | nil => rfl
  | cons step steps ih =>
      cases step
      simp [TermTree.stepPhrases, ih]

theorem ExpressionTree.length_phrases (es : List ExpressionTree) :
    (ExpressionTree.phrases es).length = es.length := by
  induction es with
  | nil => rfl
  | cons e es ih => simp [ExpressionTree.phrases, ih]

/-! ## The grammar -/

mutual

/-- A term, then any number of steps. -/
inductive IsExpression : List Token → ExpressionPhrase → List Token → Prop
  | mk {ts us vs : List Token} {first : TermPhrase} {steps : List ExpressionPhraseStep} :
      IsTerm ts first us → AreExpressionSteps us steps vs → IsExpression ts (.mk first steps) vs

/-- Any number of steps: `+` or `-` and a term. -/
inductive AreExpressionSteps : List Token → List ExpressionPhraseStep → List Token → Prop
  | nil {ts : List Token} : AreExpressionSteps ts [] ts
  | cons {ts us vs : List Token} {operator : AdditiveOperator} {term : TermPhrase}
      {steps : List ExpressionPhraseStep} :
      IsTerm ts term us → AreExpressionSteps us steps vs →
      AreExpressionSteps (.symbol operator.symbol :: ts) (.mk operator term :: steps) vs

/-- A factor, then any number of steps. -/
inductive IsTerm : List Token → TermPhrase → List Token → Prop
  | mk {ts us vs : List Token} {first : FactorPhrase} {steps : List TermPhraseStep} :
      IsFactor ts first us → AreTermSteps us steps vs → IsTerm ts (.mk first steps) vs

/-- Any number of steps: `*` or `/` and a factor. -/
inductive AreTermSteps : List Token → List TermPhraseStep → List Token → Prop
  | nil {ts : List Token} : AreTermSteps ts [] ts
  | cons {ts us vs : List Token} {operator : MultiplicativeOperator} {factor : FactorPhrase}
      {steps : List TermPhraseStep} :
      IsFactor ts factor us → AreTermSteps us steps vs →
      AreTermSteps (.symbol operator.symbol :: ts) (.mk operator factor :: steps) vs

/-- The four kinds of factors. -/
inductive IsFactor : List Token → FactorPhrase → List Token → Prop
  | call {name : List Char} {ts us vs : List Token} {first : ExpressionPhrase}
      {others : List ExpressionPhrase} :
      IsExpression ts first us → AreArguments us others (.symbol ')' :: vs) →
      IsFactor (.name name :: .symbol '(' :: ts) (.call name first others) vs
  | reference {name : List Char} {us : List Token} :
      us.head? ≠ some (.symbol '(') → IsFactor (.name name :: us) (.reference name) us
  | constant {literal : List Char} {us : List Token} :
      IsFactor (.literal literal :: us) (.constant literal) us
  | group {ts us : List Token} {inner : ExpressionPhrase} :
      IsExpression ts inner (.symbol ')' :: us) → IsFactor (.symbol '(' :: ts) (.group inner) us

/-- Any number of further arguments, a comma before each. -/
inductive AreArguments : List Token → List ExpressionPhrase → List Token → Prop
  | nil {ts : List Token} : AreArguments ts [] ts
  | cons {ts us vs : List Token} {e : ExpressionPhrase} {es : List ExpressionPhrase} :
      IsExpression ts e us → AreArguments us es vs →
      AreArguments (.symbol ',' :: ts) (e :: es) vs

end

/-! ## Depth -/

mutual

/-- How many pairs of parentheses stand inside each other. -/
def ExpressionPhrase.depth : ExpressionPhrase → Nat
  | .mk first steps => max first.depth (ExpressionPhrase.stepsDepth steps)

/-- The greatest depth among steps. -/
def ExpressionPhrase.stepsDepth : List ExpressionPhraseStep → Nat
  | [] => 0
  | .mk _ term :: steps => max term.depth (ExpressionPhrase.stepsDepth steps)

/-- The depth of a term. -/
def TermPhrase.depth : TermPhrase → Nat
  | .mk first steps => max first.depth (TermPhrase.stepsDepth steps)

/-- The greatest depth among steps. -/
def TermPhrase.stepsDepth : List TermPhraseStep → Nat
  | [] => 0
  | .mk _ factor :: steps => max factor.depth (TermPhrase.stepsDepth steps)

/-- The depth of a factor: a call or a group is one deeper than what is in it. -/
def FactorPhrase.depth : FactorPhrase → Nat
  | .call _ first others => max first.depth (ExpressionPhrase.depths others) + 1
  | .reference _ => 0
  | .constant _ => 0
  | .group inner => inner.depth + 1

/-- The greatest depth among arguments. -/
def ExpressionPhrase.depths : List ExpressionPhrase → Nat
  | [] => 0
  | e :: es => max e.depth (ExpressionPhrase.depths es)

end

/-! ## Words -/

mutual

/-- The literals of an expression. -/
def ExpressionPhrase.literals : ExpressionPhrase → List (List Char)
  | .mk first steps => first.literals ++ ExpressionPhrase.stepLiterals steps

/-- The literals of steps. -/
def ExpressionPhrase.stepLiterals : List ExpressionPhraseStep → List (List Char)
  | [] => []
  | .mk _ term :: steps => term.literals ++ ExpressionPhrase.stepLiterals steps

/-- The literals of a term. -/
def TermPhrase.literals : TermPhrase → List (List Char)
  | .mk first steps => first.literals ++ TermPhrase.stepLiterals steps

/-- The literals of steps. -/
def TermPhrase.stepLiterals : List TermPhraseStep → List (List Char)
  | [] => []
  | .mk _ factor :: steps => factor.literals ++ TermPhrase.stepLiterals steps

/-- The literals of a factor. -/
def FactorPhrase.literals : FactorPhrase → List (List Char)
  | .call _ first others => first.literals ++ ExpressionPhrase.argumentLiterals others
  | .reference _ => []
  | .constant literal => [literal]
  | .group inner => inner.literals

/-- The literals of arguments. -/
def ExpressionPhrase.argumentLiterals : List ExpressionPhrase → List (List Char)
  | [] => []
  | e :: es => e.literals ++ ExpressionPhrase.argumentLiterals es

end

mutual

/-- The names that are called in an expression. -/
def ExpressionPhrase.calls : ExpressionPhrase → List (List Char)
  | .mk first steps => first.calls ++ ExpressionPhrase.stepCalls steps

/-- The names that are called in steps. -/
def ExpressionPhrase.stepCalls : List ExpressionPhraseStep → List (List Char)
  | [] => []
  | .mk _ term :: steps => term.calls ++ ExpressionPhrase.stepCalls steps

/-- The names that are called in a term. -/
def TermPhrase.calls : TermPhrase → List (List Char)
  | .mk first steps => first.calls ++ TermPhrase.stepCalls steps

/-- The names that are called in steps. -/
def TermPhrase.stepCalls : List TermPhraseStep → List (List Char)
  | [] => []
  | .mk _ factor :: steps => factor.calls ++ TermPhrase.stepCalls steps

/-- The names that are called in a factor. -/
def FactorPhrase.calls : FactorPhrase → List (List Char)
  | .call name first others => name :: first.calls ++ ExpressionPhrase.argumentCalls others
  | .reference _ => []
  | .constant _ => []
  | .group inner => inner.calls

/-- The names that are called in arguments. -/
def ExpressionPhrase.argumentCalls : List ExpressionPhrase → List (List Char)
  | [] => []
  | e :: es => e.calls ++ ExpressionPhrase.argumentCalls es

end

/-! ## Meaning -/

/-- The number that a literal stands for. -/
def literalNumber (cs : List Char) : Binary64 :=
  match Decimal.read (String.ofList cs) with
  | .ok x => x
  | .error _ => .nan

/-- A numeral without a sign is read whole. -/
theorem read_text {n : Decimal.Numeral} (hn : n.WellFormed) :
    Decimal.read (String.ofList n.text) = .ok (n.value.toBinary64 false) := by
  obtain ⟨c, cs, hcs, hc⟩ := Token.starts_of_isNumeral ⟨n, hn, rfl⟩
  have hsign : Decimal.sign n.text = ([], n.text) := by
    rw [hcs]
    apply Decimal.sign_eq_nil
    · rintro rfl
      simp at hc
    · rintro rfl
      simp at hc
  have hscan : Decimal.Numeral.scan? (n.text ++ []) = some (n, []) :=
    Decimal.Numeral.scan?_text_append hn (by simp)
  rw [List.append_nil] at hscan
  unfold Decimal.read
  rw [if_neg (by simp [hcs]), String.toList_ofList, hsign]
  unfold Decimal.readUnsigned
  rw [hscan]
  rfl

theorem literalNumber_text {n : Decimal.Numeral} (hn : n.WellFormed) :
    literalNumber n.text = n.value.toBinary64 false := by
  rw [literalNumber, read_text hn]

mutual

/-- The first term and every `+` term are added, every `-` term is subtracted. -/
def ExpressionPhrase.sum : ExpressionPhrase → Sum
  | .mk first steps =>
      .mk (first.product :: ExpressionPhrase.added steps) (ExpressionPhrase.subtracted steps)

/-- The terms of the `+` steps, in their order. -/
def ExpressionPhrase.added : List ExpressionPhraseStep → List Product
  | [] => []
  | .mk .plus term :: steps => term.product :: ExpressionPhrase.added steps
  | .mk .minus _ :: steps => ExpressionPhrase.added steps

/-- The terms of the `-` steps, in their order. -/
def ExpressionPhrase.subtracted : List ExpressionPhraseStep → List Product
  | [] => []
  | .mk .plus _ :: steps => ExpressionPhrase.subtracted steps
  | .mk .minus term :: steps => term.product :: ExpressionPhrase.subtracted steps

/-- The first factor and every `*` factor multiply, every `/` factor divides. -/
def TermPhrase.product : TermPhrase → Product
  | .mk first steps =>
      .mk (first.factor :: TermPhrase.multiplied steps) (TermPhrase.divided steps)

/-- The factors of the `*` steps, in their order. -/
def TermPhrase.multiplied : List TermPhraseStep → List Factor
  | [] => []
  | .mk .times factor :: steps => factor.factor :: TermPhrase.multiplied steps
  | .mk .dividedBy _ :: steps => TermPhrase.multiplied steps

/-- The factors of the `/` steps, in their order. -/
def TermPhrase.divided : List TermPhraseStep → List Factor
  | [] => []
  | .mk .times _ :: steps => TermPhrase.divided steps
  | .mk .dividedBy factor :: steps => factor.factor :: TermPhrase.divided steps

/-- Arguments stay in their order, and a group stays a group. -/
def FactorPhrase.factor : FactorPhrase → Factor
  | .call name first others =>
      .call (String.ofList name) (first.sum :: ExpressionPhrase.sums others)
  | .reference name => .variable (String.ofList name)
  | .constant literal => .constant (literalNumber literal)
  | .group inner => .group inner.sum

/-- The sums of arguments. -/
def ExpressionPhrase.sums : List ExpressionPhrase → List Sum
  | [] => []
  | e :: es => e.sum :: ExpressionPhrase.sums es

end

/-! ## What a phrase reads -/

mutual

/-- The tokens of an expression: there is at least one, and each level of parentheses
opens one. -/
theorem IsExpression.append : ∀ {e : ExpressionPhrase} {ts us : List Token},
    IsExpression ts e us →
    ∃ read, ts = read ++ us ∧ e.depth ≤ read.count (.symbol '(') ∧ 0 < read.length
  | .mk first steps, ts, us, .mk hfirst hsteps => by
      obtain ⟨xs, rfl, hdx, hx⟩ := hfirst.append
      obtain ⟨ys, rfl, hdy, _⟩ := hsteps.append
      refine ⟨xs ++ ys, (List.append_assoc ..).symm, ?_, ?_⟩
      · rw [ExpressionPhrase.depth, List.count_append]
        omega
      · rw [List.length_append]
        omega

theorem AreExpressionSteps.append : ∀ {steps : List ExpressionPhraseStep} {ts us : List Token},
    AreExpressionSteps ts steps us →
    ∃ read, ts = read ++ us ∧ ExpressionPhrase.stepsDepth steps ≤ read.count (.symbol '(') ∧
      steps.length ≤ read.length
  | [], _, _, .nil => ⟨[], rfl, Nat.zero_le _, Nat.le_refl _⟩
  | .mk operator term :: steps, _, us, .cons hterm hsteps => by
      obtain ⟨xs, rfl, hdx, hx⟩ := hterm.append
      obtain ⟨ys, rfl, hdy, hy⟩ := hsteps.append
      refine ⟨.symbol operator.symbol :: (xs ++ ys), ?_, ?_, ?_⟩
      · rw [List.cons_append, List.append_assoc]
      · rw [ExpressionPhrase.stepsDepth, List.count_cons, List.count_append]
        omega
      · rw [List.length_cons, List.length_cons, List.length_append]
        omega

theorem IsTerm.append : ∀ {t : TermPhrase} {ts us : List Token}, IsTerm ts t us →
    ∃ read, ts = read ++ us ∧ t.depth ≤ read.count (.symbol '(') ∧ 0 < read.length
  | .mk first steps, ts, us, .mk hfirst hsteps => by
      obtain ⟨xs, rfl, hdx, hx⟩ := hfirst.append
      obtain ⟨ys, rfl, hdy, _⟩ := hsteps.append
      refine ⟨xs ++ ys, (List.append_assoc ..).symm, ?_, ?_⟩
      · rw [TermPhrase.depth, List.count_append]
        omega
      · rw [List.length_append]
        omega

theorem AreTermSteps.append : ∀ {steps : List TermPhraseStep} {ts us : List Token},
    AreTermSteps ts steps us →
    ∃ read, ts = read ++ us ∧ TermPhrase.stepsDepth steps ≤ read.count (.symbol '(') ∧
      steps.length ≤ read.length
  | [], _, _, .nil => ⟨[], rfl, Nat.zero_le _, Nat.le_refl _⟩
  | .mk operator factor :: steps, _, us, .cons hfactor hsteps => by
      obtain ⟨xs, rfl, hdx, hx⟩ := hfactor.append
      obtain ⟨ys, rfl, hdy, hy⟩ := hsteps.append
      refine ⟨.symbol operator.symbol :: (xs ++ ys), ?_, ?_, ?_⟩
      · rw [List.cons_append, List.append_assoc]
      · rw [TermPhrase.stepsDepth, List.count_cons, List.count_append]
        omega
      · rw [List.length_cons, List.length_cons, List.length_append]
        omega

theorem IsFactor.append : ∀ {x : FactorPhrase} {ts us : List Token}, IsFactor ts x us →
    ∃ read, ts = read ++ us ∧ x.depth ≤ read.count (.symbol '(') ∧ 0 < read.length
  | .call name first others, _, us, .call hfirst hothers => by
      obtain ⟨xs, rfl, hdx, _⟩ := hfirst.append
      obtain ⟨ys, rfl, hdy, _⟩ := hothers.append
      refine ⟨.name name :: .symbol '(' :: (xs ++ ys ++ [.symbol ')']), by simp, ?_, by simp⟩
      rw [FactorPhrase.depth, List.count_cons, List.count_cons_self, List.count_append,
        List.count_append]
      omega
  | .reference name, _, us, .reference _ => ⟨[.name name], rfl, Nat.zero_le _, Nat.one_pos⟩
  | .constant literal, _, us, .constant => ⟨[.literal literal], rfl, Nat.zero_le _, Nat.one_pos⟩
  | .group inner, _, us, .group hinner => by
      obtain ⟨xs, rfl, hdx, _⟩ := hinner.append
      refine ⟨.symbol '(' :: (xs ++ [.symbol ')']), by simp, ?_, by simp⟩
      rw [FactorPhrase.depth, List.count_cons_self, List.count_append]
      omega

theorem AreArguments.append : ∀ {es : List ExpressionPhrase} {ts us : List Token},
    AreArguments ts es us →
    ∃ read, ts = read ++ us ∧ ExpressionPhrase.depths es ≤ read.count (.symbol '(') ∧
      es.length ≤ read.length
  | [], _, _, .nil => ⟨[], rfl, Nat.zero_le _, Nat.le_refl _⟩
  | e :: es, _, us, .cons he hes => by
      obtain ⟨xs, rfl, hdx, hx⟩ := he.append
      obtain ⟨ys, rfl, hdy, hy⟩ := hes.append
      refine ⟨.symbol ',' :: (xs ++ ys), ?_, ?_, ?_⟩
      · rw [List.cons_append, List.append_assoc]
      · rw [ExpressionPhrase.depths, List.count_cons, List.count_append]
        omega
      · rw [List.length_cons, List.length_cons, List.length_append]
        omega

end

end MetricFormula.Grammar
