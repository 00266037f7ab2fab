/-
  Proofs/Interpretation/Validation: what validation makes of a parse tree.

  Whether a step of validation succeeds, and with which result, does not depend on the
  variables recorded before it.  `Answers x C a` says that `x` succeeds exactly if `C`
  holds, and then with `a`; it is put together along the steps.

  A tree is accepted if its literals are finite and the functions that it calls are
  allowed, and the result is the sum of its phrase (`walk_answers`).
-/
import MetricFormula.Interpretation.Validation
import MetricFormula.Proofs.Grammar.Phrase

set_option autoImplicit false

namespace MetricFormula

open MetricFormula.Grammar

namespace Handled

variable {σ α β : Type}

/-- From every state, a step succeeds exactly if `C` holds, and then with `a`. -/
def Answers (x : Handled σ α) (C : Prop) (a : α) : Prop :=
  ∀ s b, (x.runFrom s).1 = .ok b ↔ C ∧ b = a

theorem answers_pure (a : α) : Answers (pure a : Handled σ α) True a := by
  intro s b
  rw [runFrom_pure, Except.ok.injEq, true_and]
  exact eq_comm

theorem answers_throw (e : Fault) (a : α) : Answers (throw e : Handled σ α) False a := by
  intro s b
  simp

/-- A step and then one that depends on its result. -/
theorem Answers.bind {x : Handled σ α} {k : α → Handled σ β} {C D : Prop} {a : α} {b : β}
    (hx : Answers x C a) (hk : Answers (k a) D b) : Answers (x >>= k) (C ∧ D) b := by
  intro s r
  have hxs := hx s
  rw [runFrom_bind]
  rcases hrun : x.runFrom s with ⟨e | a', s'⟩
  · have hC : ¬C := by
      intro hC
      have hok := (hxs a).mpr ⟨hC, rfl⟩
      rw [hrun] at hok
      simp at hok
    simp [hC]
  · rw [hrun] at hxs
    obtain ⟨hC, rfl⟩ := (hxs a').mp rfl
    rw [and_iff_right hC]
    exact hk s' r

/-- A step whose result is only rearranged. -/
theorem Answers.map {x : Handled σ α} {C : Prop} {a : α} (hx : Answers x C a) (f : α → β) :
    Answers (x >>= fun a => pure (f a)) C (f a) := by
  have h : Answers (x >>= fun a => pure (f a)) (C ∧ True) (f a) := hx.bind (answers_pure (f a))
  rwa [and_true] at h

theorem Answers.congr {x : Handled σ α} {C D : Prop} {a b : α} (hx : Answers x C a)
    (hCD : C ↔ D) (hab : a = b) : Answers x D b := by
  subst hab
  intro s r
  rw [← hCD]
  exact hx s r

end Handled

namespace Validation

open Handled

/-! ## Operands -/

/-- The factor that an operand stands for. -/
def operandFactor : Operand Factor → Factor
  | .value x => x
  | .variable name _ => .variable name

theorem record_answers (name : String) : Answers (record name) True (.variable name) := by
  intro s b
  change Except.ok (Factor.variable name) = Except.ok b ↔ _
  rw [Except.ok.injEq, true_and]
  exact eq_comm

theorem factor_answers : ∀ x : Operand Factor, Answers (factor x) True (operandFactor x)
  | .value x => answers_pure x
  | .variable name _ => record_answers name

theorem factors_answers (xs : List (Operand Factor)) :
    Answers (factors xs) True (xs.map operandFactor) := by
  induction xs with
  | nil => exact answers_pure []
  | cons x xs ih =>
      refine ((factor_answers x).bind (ih.map (operandFactor x :: ·))).congr ?_ rfl
      exact and_self_iff

/-- What a factor of the tree is handed on as. -/
def treeOperand : FactorTree → Operand Factor
  | .reference _ name => .variable name.text name.span
  | x => .value x.phrase.factor

theorem operandFactor_treeOperand (x : FactorTree) :
    operandFactor (treeOperand x) = x.phrase.factor := by
  cases x with
  | reference span name =>
      rw [treeOperand, operandFactor, FactorTree.phrase, FactorPhrase.factor, String.ofList_toList]
  | call span name first others => rfl
  | constant literal => rfl
  | group inner => rfl

/-! ## Steps by operator -/

/-- The operators of steps, with what each joins. -/
def treeProducts : List ExpressionStep → List (AdditiveOperator × Product)
  | [] => []
  | .mk operator _ term :: steps => (operator, term.phrase.product) :: treeProducts steps

/-- The operators of steps, with what each joins. -/
def treeOperands : List TermStep → List (MultiplicativeOperator × Operand Factor)
  | [] => []
  | .mk operator _ factor :: steps => (operator, treeOperand factor) :: treeOperands steps

theorem added_treeProducts (p : Product) (steps : List ExpressionStep) :
    Interpretation.added p (treeProducts steps) =
      p :: ExpressionPhrase.added (ExpressionTree.stepPhrases steps) := by
  unfold Interpretation.added
  congr 1
  induction steps with
  | nil => rfl
  | cons step steps ih =>
      obtain ⟨operator, place, term⟩ := step
      cases operator with
      | plus => exact congrArg (term.phrase.product :: ·) ih
      | minus => exact ih

theorem subtracted_treeProducts (steps : List ExpressionStep) :
    Interpretation.subtracted (treeProducts steps) =
      ExpressionPhrase.subtracted (ExpressionTree.stepPhrases steps) := by
  unfold Interpretation.subtracted
  induction steps with
  | nil => rfl
  | cons step steps ih =>
      obtain ⟨operator, place, term⟩ := step
      cases operator with
      | plus => exact ih
      | minus => exact congrArg (term.phrase.product :: ·) ih

theorem multiplied_treeOperands (x : FactorTree) (steps : List TermStep) :
    (Interpretation.multiplied (treeOperand x) (treeOperands steps)).map operandFactor =
      x.phrase.factor :: TermPhrase.multiplied (TermTree.stepPhrases steps) := by
  unfold Interpretation.multiplied
  rw [List.map_cons, operandFactor_treeOperand]
  congr 1
  induction steps with
  | nil => rfl
  | cons step steps ih =>
      obtain ⟨operator, place, factor⟩ := step
      cases operator with
      | times =>
          refine Eq.trans ?_ (congrArg (factor.phrase.factor :: ·) ih)
          rw [← operandFactor_treeOperand]
          rfl
      | dividedBy => exact ih

theorem divided_treeOperands (steps : List TermStep) :
    (Interpretation.divided (treeOperands steps)).map operandFactor =
      TermPhrase.divided (TermTree.stepPhrases steps) := by
  unfold Interpretation.divided
  induction steps with
  | nil => rfl
  | cons step steps ih =>
      obtain ⟨operator, place, factor⟩ := step
      cases operator with
      | times => exact ih
      | dividedBy =>
          refine Eq.trans ?_ (congrArg (factor.phrase.factor :: ·) ih)
          rw [← operandFactor_treeOperand]
          rfl

/-! ## What is accepted -/

/-- Some literals are finite, and some called names are allowed. -/
def Admits (functions : NameSet) (literals calls : List (List Char)) : Prop :=
  (∀ l ∈ literals, (literalNumber l).isFinite = true) ∧ ∀ f ∈ calls, String.ofList f ∈ functions

variable {functions : NameSet}

theorem admits_nil : Admits functions [] [] := by
  constructor <;> simp

theorem admits_append {ls ls' fs fs' : List (List Char)} :
    Admits functions (ls ++ ls') (fs ++ fs') ↔
      Admits functions ls fs ∧ Admits functions ls' fs' := by
  unfold Admits
  rw [List.forall_mem_append, List.forall_mem_append]
  exact and_and_and_comm

theorem admits_call {name : List Char} {ls fs : List (List Char)} :
    Admits functions ls (name :: fs) ↔ Admits functions ls fs ∧ String.ofList name ∈ functions := by
  unfold Admits
  rw [List.forall_mem_cons, and_assoc, and_comm (a := String.ofList name ∈ functions)]

/-- A literal is read exactly if its number is finite. -/
theorem literalValue_eq_ok_iff {literal : String} {span : Span} {x : Binary64} :
    literalValue literal span = .ok x ↔
      (literalNumber literal.toList).isFinite = true ∧ x = literalNumber literal.toList := by
  unfold literalValue literalNumber
  rw [String.ofList_toList]
  cases Decimal.read literal with
  | error cause => simp [Binary64.isFinite]
  | ok y =>
      dsimp only
      by_cases hy : y.isFinite = true
      · rw [if_pos hy, Except.ok.injEq, and_iff_right hy]
        exact eq_comm
      · simp [hy]

theorem constant_answers (literal : String) (span : Span) :
    Answers ((Interpretation.validation functions).constant literal span)
      (Admits functions [literal.toList] [])
      (.constant (literalNumber literal.toList)) := by
  intro s b
  change ((literalValue literal span).map Factor.constant) = .ok b ↔ _
  have hiff : ∀ x, literalValue literal span = .ok x ↔
      (literalNumber literal.toList).isFinite = true ∧ x = literalNumber literal.toList :=
    fun x => literalValue_eq_ok_iff
  have hadmits : Admits functions [literal.toList] [] ↔
      (literalNumber literal.toList).isFinite = true := by
    simp [Admits]
  rw [hadmits]
  cases hvalue : literalValue literal span with
  | error e =>
      have hnot := hiff (literalNumber literal.toList)
      rw [hvalue] at hnot
      simp only [reduceCtorEq, false_iff, and_true] at hnot
      simp [Except.map, hnot]
  | ok x =>
      obtain ⟨hfin, rfl⟩ := (hiff x).mp hvalue
      simp only [Except.map, Except.ok.injEq, hfin, true_and]
      exact eq_comm

theorem call_answers (functions : NameSet) (name : String) (arguments : List Sum) (span : Span) :
    Answers ((Interpretation.validation functions).call name arguments span)
      (name ∈ functions) (.call name arguments) := by
  change Answers (if functions.contains name then _ else _) _ _
  have hcontains : functions.contains name = true ↔ name ∈ functions := decide_eq_true_iff
  rw [← hcontains]
  by_cases hname : functions.contains name = true
  · rw [if_pos hname]
    exact (answers_pure _).congr (by simp [hname]) rfl
  · rw [if_neg hname]
    exact (answers_throw _ _).congr (by simp [hname]) rfl

/-! ## The walk -/

section Walk

open Interpretation

mutual

/-- A tree is accepted if its literals are finite and its functions allowed, and the
result is the sum of its phrase. -/
theorem walk_answers : ∀ t : ExpressionTree,
    Answers ((validation functions).walk t)
      (Admits functions t.phrase.literals t.phrase.calls) t.phrase.sum
  | .mk span first steps => by
      have hfinish : Answers ((validation functions).expression
          (added first.phrase.product (treeProducts steps))
          (subtracted (treeProducts steps)) span) True
          (ExpressionTree.phrase (.mk span first steps)).sum := by
        rw [added_treeProducts, subtracted_treeProducts]
        exact answers_pure _
      refine ((walkTerm_answers first).bind ((walkSteps_answers steps).bind hfinish)).congr ?_ rfl
      rw [and_true, ← admits_append]
      rfl

theorem walkSteps_answers : ∀ steps : List ExpressionStep,
    Answers ((validation functions).walkSteps steps)
      (Admits functions (ExpressionPhrase.stepLiterals (ExpressionTree.stepPhrases steps))
        (ExpressionPhrase.stepCalls (ExpressionTree.stepPhrases steps)))
      (treeProducts steps)
  | [] => (answers_pure []).congr (iff_of_true trivial admits_nil) rfl
  | .mk operator place term :: steps => by
      have hstep : Answers ((validation functions).walkStep (.mk operator place term)) _
          (operator, term.phrase.product) := (walkTerm_answers term).map _
      refine (hstep.bind
        ((walkSteps_answers steps).map ((operator, term.phrase.product) :: ·))).congr ?_ rfl
      rw [← admits_append]
      rfl

theorem walkTerm_answers : ∀ t : TermTree,
    Answers ((validation functions).walkTerm t)
      (Admits functions t.phrase.literals t.phrase.calls) t.phrase.product
  | .mk span first steps => by
      have hfinish : Answers ((validation functions).term
          (multiplied (treeOperand first) (treeOperands steps))
          (divided (treeOperands steps)) span) (True ∧ True)
          (TermTree.phrase (.mk span first steps)).product := by
        have hnumerator := factors_answers (multiplied (treeOperand first) (treeOperands steps))
        have hdenominator := factors_answers (divided (treeOperands steps))
        rw [multiplied_treeOperands] at hnumerator
        rw [divided_treeOperands] at hdenominator
        exact hnumerator.bind (hdenominator.map _)
      refine ((walkFactor_answers first).bind ((walkTermSteps_answers steps).bind hfinish)).congr
        ?_ rfl
      rw [and_true, and_true, ← admits_append]
      rfl

theorem walkTermSteps_answers : ∀ steps : List TermStep,
    Answers ((validation functions).walkTermSteps steps)
      (Admits functions (TermPhrase.stepLiterals (TermTree.stepPhrases steps))
        (TermPhrase.stepCalls (TermTree.stepPhrases steps)))
      (treeOperands steps)
  | [] => (answers_pure []).congr (iff_of_true trivial admits_nil) rfl
  | .mk operator place factor :: steps => by
      have hstep : Answers ((validation functions).walkTermStep (.mk operator place factor)) _
          (operator, treeOperand factor) := (walkFactor_answers factor).map _
      refine (hstep.bind
        ((walkTermSteps_answers steps).map ((operator, treeOperand factor) :: ·))).congr ?_ rfl
      rw [← admits_append]
      rfl

theorem walkFactor_answers : ∀ x : FactorTree,
    Answers ((validation functions).walkFactor x)
      (Admits functions x.phrase.literals x.phrase.calls) (treeOperand x)
  | .reference _ name => (answers_pure _).congr (iff_of_true trivial admits_nil) rfl
  | .constant literal => (constant_answers literal.text literal.span).map Operand.value
  | .group inner => by
      have hgroup : Answers ((validation functions).group inner.phrase.sum inner.span) True
          (.group inner.phrase.sum) := answers_pure _
      refine ((walk_answers inner).bind (hgroup.map Operand.value)).congr ?_ rfl
      rw [and_true]
      rfl
  | .call span name first others => by
      have henter : Answers ((validation functions).enterCall name.text span) True () :=
        answers_pure ()
      have hcall := call_answers functions name.text
        (first.phrase.sum :: ExpressionPhrase.sums (ExpressionTree.phrases others)) span
      refine (henter.bind ((walk_answers first).bind
        ((walkArguments_answers others).bind (hcall.map Operand.value)))).congr ?_ ?_
      · rw [true_and, FactorTree.phrase, FactorPhrase.literals, FactorPhrase.calls,
          List.cons_append, admits_call, String.ofList_toList, admits_append, and_assoc]
      · change _ = Operand.value (Factor.call (String.ofList name.text.toList) _)
        rw [String.ofList_toList]

theorem walkArguments_answers : ∀ es : List ExpressionTree,
    Answers ((validation functions).walkArguments es)
      (Admits functions (ExpressionPhrase.argumentLiterals (ExpressionTree.phrases es))
        (ExpressionPhrase.argumentCalls (ExpressionTree.phrases es)))
      (ExpressionPhrase.sums (ExpressionTree.phrases es))
  | [] => (answers_pure []).congr (iff_of_true trivial admits_nil) rfl
  | e :: es => by
      refine ((walk_answers e).bind ((walkArguments_answers es).map (e.phrase.sum :: ·))).congr ?_
        rfl
      rw [← admits_append]
      rfl

end

end Walk

end Validation

end MetricFormula
