/-
  Proofs/Interpretation/Failure: with which fault an interpretation fails.

  `FailsWith x o` says that a step fails exactly if `o` is a fault, and then with that one,
  whatever the state.  It is put together along the steps: the first fault is that of the
  whole.

  An interpretation that judges each literal and each call alone (`Judges`), and never
  fails otherwise, fails with the first fault among the constructs of a tree
  (`walk_failsWith`).  Checking and validating a text are two such interpretations.
-/
import MetricFormula.Formula
import MetricFormula.Proofs.Grammar.Construct
import MetricFormula.Proofs.Interpretation.Validation

set_option autoImplicit false

namespace MetricFormula

open MetricFormula.Grammar

namespace Handled

variable {σ α β : Type}

/-- From every state, a step fails exactly with the fault `o`, if there is one. -/
def FailsWith (x : Handled σ α) (o : Option Fault) : Prop :=
  ∀ s e, (x.runFrom s).1 = .error e ↔ o = some e

theorem failsWith_pure (a : α) : FailsWith (pure a : Handled σ α) none := by
  intro s e
  simp

theorem failsWith_throw (e : Fault) : FailsWith (throw e : Handled σ α) (some e) := by
  intro s e'
  simp

theorem failsWith_ofExcept {x : Except Fault α} {o : Option Fault}
    (h : ∀ e, x = .error e ↔ o = some e) : FailsWith (Handled.ofExcept x : Handled σ α) o :=
  fun _ e => h e

/-- A step that has an answer does not fail. -/
theorem Answers.failsWith {x : Handled σ α} {a : α} (hx : Answers x True a) :
    FailsWith x none := by
  intro s e
  have hok := (hx s a).mpr ⟨trivial, rfl⟩
  simp [hok]

/-- A step and then another one: the fault is that of the first one that has one. -/
theorem FailsWith.bind {x : Handled σ α} {k : α → Handled σ β} {o o' : Option Fault}
    (hx : FailsWith x o) (hk : ∀ a, FailsWith (k a) o') : FailsWith (x >>= k) (o.or o') := by
  intro s e
  have hxs := hx s
  rw [runFrom_bind]
  rcases hrun : x.runFrom s with ⟨e' | a, s'⟩
  · rw [hrun] at hxs
    rw [(hxs e').mp rfl, Option.some_or, Option.some.injEq, Except.error.injEq]
  · have hnone : o = none := by
      cases o with
      | none => rfl
      | some e' =>
          have herror := (hxs e').mpr rfl
          rw [hrun] at herror
          simp at herror
    rw [hnone, Option.none_or]
    exact hk a s' e

/-- A step and then one that does not fail. -/
theorem FailsWith.finish {x : Handled σ α} {k : α → Handled σ β} {o : Option Fault}
    (hx : FailsWith x o) (hk : ∀ a, FailsWith (k a) none) : FailsWith (x >>= k) o := by
  have h : FailsWith (x >>= k) (o.or none) := hx.bind hk
  rwa [Option.or_none] at h

/-- A step whose result is only rearranged. -/
theorem FailsWith.map {x : Handled σ α} {o : Option Fault} (hx : FailsWith x o) (f : α → β) :
    FailsWith (x >>= fun a => pure (f a)) o :=
  hx.finish fun a => failsWith_pure (f a)

end Handled

/-! ## Judging constructs one by one -/

namespace Interpretation

open Handled

variable {σ ε τ φ : Type}

/-- An interpretation whose literals and calls fail as `fault?` says, and which does not
fail otherwise. -/
structure Judges (I : Interpretation σ ε τ φ) (fault? : Construct → Option Fault) : Prop where
  expression : ∀ positive negative span, FailsWith (I.expression positive negative span) none
  term : ∀ numerator denominator span, FailsWith (I.term numerator denominator span) none
  enterCall : ∀ name span, FailsWith (I.enterCall name span) none
  call : ∀ name arguments span,
    FailsWith (I.call name arguments span) (fault? (.call name span))
  constant : ∀ literal span, FailsWith (I.constant literal span) (fault? (.literal literal span))
  group : ∀ inner span, FailsWith (I.group inner span) none

section Walk

variable {I : Interpretation σ ε τ φ} {fault? : Construct → Option Fault}

mutual

/-- A walk fails with the first fault among the constructs of the tree. -/
theorem walk_failsWith (hI : I.Judges fault?) : ∀ t : ExpressionTree,
    FailsWith (I.walk t) (t.constructs.findSome? fault?)
  | .mk span first steps => by
      rw [ExpressionTree.constructs, List.findSome?_append]
      exact (walkTerm_failsWith hI first).bind fun _ =>
        (walkSteps_failsWith hI steps).finish fun _ => hI.expression _ _ _

theorem walkSteps_failsWith (hI : I.Judges fault?) : ∀ steps : List ExpressionStep,
    FailsWith (I.walkSteps steps) ((ExpressionTree.stepConstructs steps).findSome? fault?)
  | [] => failsWith_pure []
  | .mk operator place term :: steps => by
      have hstep : FailsWith (I.walkStep (.mk operator place term)) _ :=
        (walkTerm_failsWith hI term).map _
      rw [ExpressionTree.stepConstructs, List.findSome?_append]
      exact hstep.bind fun _ => (walkSteps_failsWith hI steps).map _

theorem walkTerm_failsWith (hI : I.Judges fault?) : ∀ t : TermTree,
    FailsWith (I.walkTerm t) (t.constructs.findSome? fault?)
  | .mk span first steps => by
      rw [TermTree.constructs, List.findSome?_append]
      exact (walkFactor_failsWith hI first).bind fun _ =>
        (walkTermSteps_failsWith hI steps).finish fun _ => hI.term _ _ _

theorem walkTermSteps_failsWith (hI : I.Judges fault?) : ∀ steps : List TermStep,
    FailsWith (I.walkTermSteps steps) ((TermTree.stepConstructs steps).findSome? fault?)
  | [] => failsWith_pure []
  | .mk operator place factor :: steps => by
      have hstep : FailsWith (I.walkTermStep (.mk operator place factor)) _ :=
        (walkFactor_failsWith hI factor).map _
      rw [TermTree.stepConstructs, List.findSome?_append]
      exact hstep.bind fun _ => (walkTermSteps_failsWith hI steps).map _

theorem walkFactor_failsWith (hI : I.Judges fault?) : ∀ x : FactorTree,
    FailsWith (I.walkFactor x) (x.constructs.findSome? fault?)
  | .reference _ name => failsWith_pure _
  | .constant literal => by
      rw [FactorTree.constructs, List.findSome?_singleton]
      exact (hI.constant literal.text literal.span).map _
  | .group inner => by
      rw [FactorTree.constructs]
      exact (walk_failsWith hI inner).finish fun _ => (hI.group _ _).map _
  | .call span name first others => by
      rw [FactorTree.constructs, List.findSome?_append, List.findSome?_append,
        List.findSome?_singleton]
      exact (hI.enterCall name.text span).bind fun _ =>
        (walk_failsWith hI first).bind fun _ =>
          (walkArguments_failsWith hI others).bind fun _ => (hI.call name.text _ span).map _

theorem walkArguments_failsWith (hI : I.Judges fault?) : ∀ es : List ExpressionTree,
    FailsWith (I.walkArguments es) ((ExpressionTree.argumentConstructs es).findSome? fault?)
  | [] => failsWith_pure []
  | e :: es => by
      rw [ExpressionTree.argumentConstructs, List.findSome?_append]
      exact (walk_failsWith hI e).bind fun _ => (walkArguments_failsWith hI es).map _

end

end Walk

end Interpretation

/-! ## Checking and validating -/

open Handled

/-- The fault of a construct where literals have to be finite and the names of functions
have to pass a test. -/
def Grammar.Construct.fault? (allowed : String → Bool) : Construct → Option Fault
  | .literal text span =>
      match literalValue text span with
      | .ok _ => none
      | .error e => some e
  | .call name span => if allowed name then none else some (.unknownFunction name span)

theorem literalValue_eq_error_iff {allowed : String → Bool} {literal : String} {span : Span}
    {e : Fault} : literalValue literal span = .error e ↔
      Construct.fault? allowed (.literal literal span) = some e := by
  rw [Construct.fault?]
  cases literalValue literal span with
  | error e' => simp
  | ok x => simp

theorem literalValue_of_isNumeral {literal : String} (h : IsNumeral literal.toList)
    (span : Span) :
    literalValue literal span =
      if (literalNumber literal.toList).isFinite then .ok (literalNumber literal.toList)
      else .error (.malformed span.start (.outOfRange literal)) := by
  obtain ⟨n, hn, htext⟩ := h
  have hread : Decimal.read literal = .ok (n.value.toBinary64 false) := by
    rw [← read_text hn, htext, String.ofList_toList]
  rw [literalValue, hread, ← htext, literalNumber_text hn]

theorem acceptance_judges : Interpretation.acceptance.Judges (Construct.fault? fun _ => true) where
  expression _ _ _ := failsWith_pure ()
  term _ _ _ := failsWith_pure ()
  enterCall _ _ := failsWith_pure ()
  call _ _ _ := failsWith_pure ()
  constant _ _ := (failsWith_ofExcept fun _ => literalValue_eq_error_iff).map _
  group _ _ := failsWith_pure ()

theorem validation_judges (functions : NameSet) :
    (Interpretation.validation functions).Judges (Construct.fault? functions.contains) where
  expression _ _ _ := failsWith_pure _
  term numerator denominator _ :=
    (Validation.factors_answers numerator).failsWith.bind fun _ =>
      (Validation.factors_answers denominator).failsWith.map _
  enterCall _ _ := failsWith_pure ()
  call name arguments span := by
    change FailsWith (if functions.contains name then _ else _) (if _ then _ else _)
    by_cases h : functions.contains name = true
    · rw [if_pos h, if_pos h]
      exact failsWith_pure _
    · rw [if_neg h, if_neg h]
      exact failsWith_throw _
  constant literal span := by
    refine failsWith_ofExcept fun e => ?_
    rw [← literalValue_eq_error_iff]
    cases literalValue literal span with
    | error e' => simp [Except.map]
    | ok x => simp [Except.map]
  group _ _ := failsWith_pure _

/-! ## The first literal without a finite number -/

/-- The fault of the first literal that stands for no finite number. -/
def Grammar.literalFault? (cs : List Construct) : Option Fault :=
  cs.findSome? (Construct.fault? fun _ => true)

/-- A literal among constructs fails where it starts. -/
theorem Grammar.InOrder.literalFault {n m : Nat} {cs : List Construct} (h : InOrder n m cs)
    {c : Construct} (hc : c ∈ cs) {e : Fault} (he : c.fault? (fun _ => true) = some e) :
    ∃ text span, c = .literal text span ∧ e = .malformed span.start (.outOfRange text) := by
  cases c with
  | literal text span =>
      rw [← literalValue_eq_error_iff, literalValue_of_isNumeral (h.numeral text span hc)] at he
      split at he
      · simp at he
      · exact ⟨text, span, rfl, (Except.error.inj he).symm⟩
  | call name span => simp [Construct.fault?] at he

/-! ## Texts -/

namespace Policy

variable {p : Policy} {source : String} {t : ExpressionTree} {e : Fault}

theorem check_eq_error_iff (h : Interpretation.parse p.maxDepth source = .ok t) :
    p.check source = .error e ↔ literalFault? t.constructs = some e := by
  unfold check Interpretation.run
  rw [h]
  exact Interpretation.walk_failsWith acceptance_judges t () e

theorem validate_eq_error_iff (h : Interpretation.parse p.maxDepth source = .ok t) :
    p.validate source = .error e ↔
      t.constructs.findSome? (Construct.fault? p.functions.contains) = some e := by
  have hwalk := Interpretation.walk_failsWith (validation_judges p.functions) t .empty e
  rw [← hwalk]
  unfold validate Interpretation.run
  rw [h]
  dsimp only
  rcases ((Interpretation.validation p.functions).walk t).runFrom .empty with ⟨e' | ast, names⟩
  · simp
  · simp

theorem exists_validate_iff (h : Interpretation.parse p.maxDepth source = .ok t) :
    (∃ f, p.validate source = .ok f) ↔
      t.constructs.findSome? (Construct.fault? p.functions.contains) = none := by
  have herror := fun e => validate_eq_error_iff (p := p) (e := e) h
  cases hresult : p.validate source with
  | error e => simp [(herror e).mp hresult]
  | ok f =>
      simp only [Except.ok.injEq, exists_eq', true_iff]
      refine Option.eq_none_iff_forall_ne_some.mpr fun e he => ?_
      rw [(herror e).mpr he] at hresult
      simp at hresult

end Policy

end MetricFormula
