/-
  Proofs/Faults: which faults each operation can fail with.

  A text that has no parse tree is malformed.  Past that, checking fails for a literal, and
  validation for a literal or a call; evaluation can also miss a variable, divide by zero or
  be asked for a call, and over columns the lengths may not fit.  No operation ever finds an
  inconsistency (`faults_by_operation`): what the grammar takes for a literal can be read, and
  every outline that it leaves can be walked.
-/
import MetricFormula.Proofs.Bindings
import MetricFormula.Proofs.Interpretation.Outline
import MetricFormula.Series.Column

set_option autoImplicit false

namespace MetricFormula

open MetricFormula.Grammar

/-! ## Kinds of faults -/

/-- What a fault is about, without its place. -/
inductive FaultKind where
  | malformed
  | unknownFunction
  | unboundVariable
  | divisionByZero
  | unsupported (rule : Rule)
  | series
  | internal
  deriving DecidableEq, Repr

def Fault.kind : Fault → FaultKind
  | malformed _ _ => .malformed
  | unknownFunction _ _ => .unknownFunction
  | unboundVariable _ _ => .unboundVariable
  | divisionByZero _ => .divisionByZero
  | unsupported rule _ => .unsupported rule
  | series _ => .series
  | internal _ => .internal

/-- If a result is a fault, it is one of some kinds. -/
def FailsOnlyWith {α : Type} (kinds : List FaultKind) (x : Except Fault α) : Prop :=
  ∀ e, x = .error e → e.kind ∈ kinds

/-! ## Literals -/

/-- What the grammar takes for a constant is a numeral, and can be read. -/
theorem constant_read {cs read rest : List Char} (h : Scan.constant cs = some (read, rest)) :
    IsNumeral read ∧ ∃ x, Decimal.read (String.ofList read) = .ok x := by
  have hmunches := constant_iff_munches.mp h
  obtain ⟨n, hn, rfl⟩ : IsNumeral read := hmunches.valid
  exact ⟨⟨n, hn, rfl⟩, _, read_text hn⟩

namespace Interpretation

variable {maxDepth : Nat} {source : String} {t : ExpressionTree} {e : Fault}

/-- A text without a parse tree is malformed. -/
theorem kind_of_parse (h : parse maxDepth source = .error e) : e.kind = .malformed := by
  obtain ⟨position, reason, rfl, -⟩ := malformed_of_parse h
  rfl

/-- A literal of a parse tree can only be out of range. -/
theorem kind_of_literal (h : parse maxDepth source = .ok t) {text : String} {span : Span}
    (hmem : .literal text span ∈ t.constructs) (he : literalValue text span = .error e) :
    e.kind = .malformed := by
  obtain ⟨_, _, _, -, hstands⟩ := tree_stands (parse_eq_ok.mp h).2
  rw [literalValue_of_isNumeral (hstands.inOrder.numeral text span hmem)] at he
  split at he
  · simp at he
  · obtain rfl := Except.error.inj he
    rfl

/-- A construct of a parse tree offends for being a literal out of range, or a call that is not
allowed. -/
theorem kind_of_fault? (h : parse maxDepth source = .ok t) {allowed : String → Bool}
    (he : t.constructs.findSome? (Construct.fault? allowed) = some e) :
    e.kind = .malformed ∨ e.kind = .unknownFunction ∧ ∃ name, allowed name = false := by
  obtain ⟨c, hc, hfault⟩ := List.exists_of_findSome?_eq_some he
  cases c with
  | literal text span => exact Or.inl (kind_of_literal h hc (literalValue_eq_error_iff.mpr hfault))
  | call name span =>
      rw [Construct.fault?] at hfault
      split at hfault
      · simp at hfault
      · rename_i hallowed
        obtain rfl := Option.some.inj hfault
        exact Or.inr ⟨rfl, name, Bool.eq_false_iff.mpr hallowed⟩

end Interpretation

/-! ## Operations -/

section Operations

open Interpretation

variable {p : Policy} {source : String}

theorem check_failsOnlyWith : FailsOnlyWith [.malformed] (p.check source) := by
  intro e he
  rw [List.mem_singleton]
  cases ht : parse p.maxDepth source with
  | error e' =>
      rw [Policy.check_eq, ht] at he
      obtain rfl := Except.error.inj he
      exact kind_of_parse ht
  | ok t =>
      rcases kind_of_fault? ht ((Policy.check_eq_error_iff ht).mp he) with hkind | ⟨-, _, hname⟩
      · exact hkind
      · simp at hname

theorem validate_failsOnlyWith :
    FailsOnlyWith [.malformed, .unknownFunction] (p.validate source) := by
  intro e he
  rw [List.mem_cons, List.mem_singleton]
  cases ht : parse p.maxDepth source with
  | error e' =>
      obtain rfl := Except.error.inj ((Policy.validate_of_parse ht).symm.trans he)
      exact Or.inl (kind_of_parse ht)
  | ok t =>
      refine (kind_of_fault? ht ((Policy.validate_eq_error_iff ht).mp he)).imp_right ?_
      exact fun h => h.1

/-- The kinds of faults of evaluation, over any series. -/
theorem evaluate_kind {σ : Type} [Series σ] {bindings : Bindings σ} {e : Fault}
    (he : p.evaluate source bindings = .error e) :
    e.kind ∈ [FaultKind.malformed, .unboundVariable, .divisionByZero, .unsupported .call] ∨
      ∃ cause, e = .series cause ∧ Series.Mismatches σ cause := by
  cases ht : parse p.maxDepth source with
  | error e' =>
      rw [Policy.evaluate_eq, ht] at he
      obtain rfl := Except.error.inj he
      rw [kind_of_parse ht]
      exact Or.inl (by decide)
  | ok t =>
      rw [Policy.evaluate_eq, ht] at he
      have hwalk : ((evaluation bindings).walk t).outcome = .error e := he
      have hreports := Evaluation.walk_reports bindings t
      rw [hwalk] at hreports
      cases hreports with
      | call _ => exact Or.inl (by simp [Fault.kind])
      | literal hmem hvalue =>
          rw [kind_of_literal ht hmem hvalue]
          exact Or.inl (by decide)
      | unbound _ _ => exact Or.inl (by simp [Fault.kind])
      | divisionByZero => exact Or.inl (by simp [Fault.kind])
      | series hcause => exact Or.inr ⟨_, rfl, hcause⟩

end Operations

/-- Checking only finds a text malformed; validation also refuses functions; evaluation also
misses variables, divides by zero, or is asked for a call, and over columns the lengths may not
fit.  No operation finds an inconsistency.  Whatever the interpretation, walking the outline of a
text is interpreting the text, so that no rule in it is unhandled, and every literal of the
grammar can be read. -/
theorem faults_by_operation (p : Policy) (source : String) :
    FailsOnlyWith [.malformed] (p.check source) ∧
      FailsOnlyWith [.malformed, .unknownFunction] (p.validate source) ∧
      (∀ bindings : Bindings Binary64,
        FailsOnlyWith [.malformed, .unboundVariable, .divisionByZero, .unsupported .call]
          (p.evaluate source bindings)) ∧
      (∀ bindings : Bindings Column,
        FailsOnlyWith [.malformed, .unboundVariable, .divisionByZero, .unsupported .call, .series]
          (p.evaluate source bindings)) ∧
      (∀ {σ ε τ φ : Type} (I : Interpretation σ ε τ φ),
        I.runOutline p.maxDepth source = I.run p.maxDepth source) ∧
      ∀ cs read rest, Scan.constant cs = some (read, rest) →
        IsNumeral read ∧ ∃ x, Decimal.read (String.ofList read) = .ok x := by
  refine ⟨check_failsOnlyWith, validate_failsOnlyWith, ?_, ?_, ?_, ?_⟩
  · intro bindings e he
    rcases evaluate_kind he with hkind | ⟨cause, -, hcause⟩
    · exact hkind
    · exact absurd hcause (not_mismatches_binary64 cause)
  · intro bindings e he
    rcases evaluate_kind he with hkind | ⟨cause, rfl, -⟩
    · exact List.mem_append_left [.series] hkind
    · simp [Fault.kind]
  · exact fun I => Interpretation.runOutline_eq_run I p.maxDepth source
  · exact fun _ _ _ h => constant_read h

/-- A text with a function that is not allowed, and a name that is not bound. -/
def unknownCall : String := "x + y2 - f(x)"

theorem faults_by_operation_unknownCall :
    (∃ e, Policy.standard.validate unknownCall = .error e ∧
        e.kind ∈ [.malformed, .unknownFunction]) ∧
      (∃ e, Policy.standard.evaluate unknownCall numberBindings = .error e ∧
        e.kind ∈
          [FaultKind.malformed, .unboundVariable, .divisionByZero, .unsupported .call]) ∧
      ∃ x, Decimal.read ".5" = .ok x := by
  have hvalidate : (Policy.standard.validate unknownCall).isOk = false := by decide +kernel
  have hevaluate : (Policy.standard.evaluate unknownCall numberBindings).isOk = false := by
    decide +kernel
  have hscan : Scan.constant ".5e+".toList = some (".5".toList, "e+".toList) := by decide
  obtain ⟨-, hvalidation, hevaluation, -, -, hliteral⟩ :=
    faults_by_operation Policy.standard unknownCall
  obtain ⟨e, he⟩ := exists_eq_error hvalidate
  obtain ⟨e', he'⟩ := exists_eq_error hevaluate
  exact ⟨⟨e, he, hvalidation e he⟩, ⟨e', he', hevaluation numberBindings e' he'⟩,
    (hliteral _ _ _ hscan).2⟩

end MetricFormula
