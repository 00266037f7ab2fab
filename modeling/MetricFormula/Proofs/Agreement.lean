/-
  Proofs/Agreement: what checking a text finds wrong, and what validating or evaluating it
  finds wrong.

  The three read a text in the same way, so they agree on nesting and on the grammar.  A
  literal that stands for no finite number is only met on the walk over the parse tree, and
  the walk may stop before it.  Validation does so exactly at a call of a function that is not
  allowed and that ends before the literal, and evaluation exactly at a faulty part that it
  comes to before the literal (`check_malformed`).
-/
import MetricFormula.Proofs.Interpretation.Evaluation
import MetricFormula.Proofs.Interpretation.Failure
import MetricFormula.Proofs.Interpretation.Outcome
import Mathlib.Control.Monad.Basic

set_option autoImplicit false

namespace MetricFormula

open MetricFormula.Grammar

/-! ## Before the literal -/

/-- The first literal out of range, with the constructs that end before it and those that end
after it. -/
theorem Grammar.InOrder.split_at_literal {n m position : Nat} {cs : List Construct}
    {reason : Malformation} (h : InOrder n m cs)
    (hliteral : literalFault? cs = some (.malformed position reason)) :
    ∃ ds literal stop es, cs = ds ++ .literal literal ⟨position, stop⟩ :: es ∧
      reason = .outOfRange literal ∧
      literalValue literal ⟨position, stop⟩ = .error (.malformed position reason) ∧
      literalFault? ds = none ∧ (∀ d ∈ ds, d.span.stop ≤ position) ∧
      ∀ e ∈ es, position < e.span.stop := by
  obtain ⟨ds, c, es, rfl, hfault, hds⟩ := List.findSome?_eq_some_iff.mp hliteral
  have hc : c ∈ ds ++ c :: es := List.mem_append_right ds List.mem_cons_self
  obtain ⟨literal, ⟨start, stop⟩, rfl, heq⟩ := h.literalFault hc hfault
  obtain ⟨rfl, hreason⟩ := Fault.malformed.inj heq
  have hbefore := (List.pairwise_append.mp h.precedes).2.2
  have hafter := (List.pairwise_append.mp h.ascending).2.1
  refine ⟨ds, literal, stop, es, rfl, hreason, literalValue_eq_error_iff.mpr hfault,
    List.findSome?_eq_none_iff.mpr hds, fun d hd => hbefore d hd _ List.mem_cons_self, ?_⟩
  intro e he
  exact Nat.lt_trans (h.within _ hc).2.1 (List.rel_of_pairwise_cons hafter he)

section Calls

variable {functions : NameSet} {cs : List Construct}

/-- Where the literals are in range, only calls of functions that are not allowed have a
fault. -/
theorem findSome?_fault?_eq_some {e : Fault} (hliterals : literalFault? cs = none)
    (h : cs.findSome? (Construct.fault? functions.contains) = some e) :
    ∃ name span, .call name span ∈ cs ∧ name ∉ functions ∧ e = .unknownFunction name span := by
  obtain ⟨c, hc, hfault⟩ := List.exists_of_findSome?_eq_some h
  cases c with
  | literal text span =>
      -- Which functions are allowed makes no difference to a literal.
      have hnone := List.findSome?_eq_none_iff.mp hliterals _ hc
      change Construct.fault? functions.contains (.literal text span) = none at hnone
      simp [hnone] at hfault
  | call name span =>
      rw [Construct.fault?, NameSet.contains] at hfault
      by_cases hname : name ∈ functions
      · simp [hname] at hfault
      · rw [decide_eq_false hname, if_neg Bool.false_ne_true, Option.some.injEq] at hfault
        exact ⟨name, span, hc, hname, hfault.symm⟩

theorem findSome?_fault?_isSome {name : String} {span : Span} (hcall : .call name span ∈ cs)
    (hname : name ∉ functions) :
    cs.findSome? (Construct.fault? functions.contains) ≠ none := by
  intro hnone
  have hfault := List.findSome?_eq_none_iff.mp hnone _ hcall
  simp [Construct.fault?, NameSet.contains, hname] at hfault

/-- Validation finds the literal unless there is a call of a function that is not allowed and
that ends before it. -/
theorem Grammar.InOrder.literal_or_call {n m position : Nat} {reason : Malformation}
    (h : InOrder n m cs) (hliteral : literalFault? cs = some (.malformed position reason)) :
    (cs.findSome? (Construct.fault? functions.contains) = some (.malformed position reason) ↔
        ∀ name span, .call name span ∈ cs → span.stop ≤ position → name ∈ functions) ∧
      (cs.findSome? (Construct.fault? functions.contains) ≠ some (.malformed position reason) →
        ∃ name span, .call name span ∈ cs ∧ name ∉ functions ∧ span.stop ≤ position ∧
          cs.findSome? (Construct.fault? functions.contains) =
            some (.unknownFunction name span)) := by
  obtain ⟨ds, literal, stop, es, rfl, -, hvalue, hliterals, hbefore, hafter⟩ :=
    h.split_at_literal hliteral
  have hfault : Construct.fault? functions.contains (.literal literal ⟨position, stop⟩) =
      some (.malformed position reason) := literalValue_eq_error_iff.mp hvalue
  rw [List.findSome?_append, List.findSome?_cons, hfault]
  cases hds : ds.findSome? (Construct.fault? functions.contains) with
  | none =>
      refine ⟨iff_of_true rfl fun name span hcall hstop => ?_, fun hne => absurd rfl hne⟩
      rcases List.mem_append.mp hcall with hcall | hcall
      · by_contra hname
        exact findSome?_fault?_isSome hcall hname hds
      · have hcall := (List.mem_cons.mp hcall).resolve_left (by simp)
        exact absurd hstop (Nat.not_le_of_lt (hafter _ hcall))
  | some e =>
      obtain ⟨name, span, hcall, hname, rfl⟩ := findSome?_fault?_eq_some hliterals hds
      have hmem := List.mem_append_left (.literal literal ⟨position, stop⟩ :: es) hcall
      refine ⟨iff_of_false (by simp) fun hallowed => ?_,
        fun _ => ⟨name, span, hmem, hname, hbefore _ hcall, rfl⟩⟩
      exact hname (hallowed name span hmem (hbefore _ hcall))

end Calls

/-! ## Texts -/

/-- No literal is looked at before there is a parse tree. -/
theorem Interpretation.parse_ne_outOfRange {maxDepth position : Nat} {source literal : String} :
    parse maxDepth source ≠ .error (.malformed position (.outOfRange literal)) := by
  intro h
  rcases parse_eq_error.mp h with h | ⟨-, f, -, h⟩
  · unfold Nesting.check at h
    split at h
    · simp at h
    · simp at h
  · simp [Fault.ofFailure] at h

/-- A text that checking finds malformed is found malformed in the same way by validation, with
whatever functions, and by evaluation, over whatever series, unless it is a literal that is
out of range.  Then validation finds the same exactly if every function is allowed that is
called before the literal, and otherwise fails at such a call; and evaluation finds the same
exactly if it comes to no faulty part before the literal, and otherwise fails at the first
one. -/
theorem check_malformed (p : Policy) (source : String) {position : Nat} {reason : Malformation}
    (h : p.check source = .error (.malformed position reason)) :
    ((∀ literal, reason ≠ .outOfRange literal) →
      (∀ functions : NameSet,
        Policy.validate ⟨p.maxDepth, functions⟩ source = .error (.malformed position reason)) ∧
      ∀ (σ : Type) [Series σ] (bindings : Bindings σ),
        p.evaluate source bindings = .error (.malformed position reason)) ∧
    ∀ literal, reason = .outOfRange literal →
      ∃ t ps stop, Interpretation.parse p.maxDepth source = .ok t ∧
        CutAt (Cursor.ofString source) ps ∧ .literal literal ⟨position, stop⟩ ∈ constructs ps ∧
        (∀ functions : NameSet,
          (Policy.validate ⟨p.maxDepth, functions⟩ source =
              .error (.malformed position reason) ↔
            ∀ name span, .call name span ∈ constructs ps → span.stop ≤ position →
              name ∈ functions) ∧
          (Policy.validate ⟨p.maxDepth, functions⟩ source ≠
              .error (.malformed position reason) →
            ∃ name span, .call name span ∈ constructs ps ∧ name ∉ functions ∧
              span.stop ≤ position ∧ Policy.validate ⟨p.maxDepth, functions⟩ source =
                .error (.unknownFunction name span))) ∧
        ∀ (σ : Type) [Series σ] (bindings : Bindings σ),
          (p.evaluate source bindings = .error (.malformed position reason) ↔
            ∀ q ∈ t.parts, ∀ e, Evaluation.Faulty bindings q e →
              position ≤ Evaluation.reachedAt q) ∧
          (p.evaluate source bindings ≠ .error (.malformed position reason) →
            ∃ q e, Evaluation.IsFirstFaulty bindings t.parts q e ∧
              Evaluation.reachedAt q < position ∧ p.evaluate source bindings = .error e) := by
  cases hparse : Interpretation.parse p.maxDepth source with
  | error e =>
      rw [Policy.check_eq, hparse] at h
      obtain rfl := Except.error.inj h
      refine ⟨fun _ => ⟨fun functions => Policy.validate_of_parse hparse, ?_⟩, ?_⟩
      · intro σ _ bindings
        rw [Policy.evaluate_eq, hparse]
        rfl
      · rintro literal rfl
        exact absurd hparse Interpretation.parse_ne_outOfRange
  | ok t =>
      have hliteral : literalFault? t.constructs = some (.malformed position reason) :=
        (Policy.check_eq_error_iff hparse).mp h
      obtain ⟨ps, n, m, hcut, hstands⟩ := tree_stands (Interpretation.parse_eq_ok.mp hparse).2
      have hmem : ∀ c, c ∈ constructs ps ↔ c ∈ t.constructs := by
        intro c
        rw [hstands.mem_constructs, constructs]
        simp
      obtain ⟨_, text, stop, _, hsplit, rfl, hvalue, -⟩ :=
        hstands.inOrder.split_at_literal hliteral
      have hplace : .literal text ⟨position, stop⟩ ∈ t.constructs := by simp [hsplit]
      refine ⟨fun hreason => absurd rfl (hreason text), ?_⟩
      rintro literal hreason
      obtain rfl := Malformation.outOfRange.inj hreason
      refine ⟨t, ps, stop, rfl, hcut, (hmem _).mpr hplace, ?_, ?_⟩
      · intro functions
        have hvalidate := fun e =>
          Policy.validate_eq_error_iff (p := ⟨p.maxDepth, functions⟩) (e := e) hparse
        simp only [hmem, ne_eq, hvalidate]
        exact hstands.inOrder.literal_or_call hliteral
      · intro σ _ bindings
        obtain ⟨part, hpart, hconstruct⟩ := ExpressionTree.mem_constructs_iff.mp hplace
        obtain rfl := Part.construct?_eq_literal hconstruct
        exact (Policy.evaluate_finds hparse bindings).of_literal hpart hvalue

/-- A call that the standard policy does not allow, and a literal out of range after it. -/
def callBeforeLiteral : String := "g(x) + 1e999"

theorem check_callBeforeLiteral :
    Policy.standard.check callBeforeLiteral = .error (.malformed 7 (.outOfRange "1e999")) := by
  decide +kernel

theorem validate_callBeforeLiteral :
    Policy.standard.validate callBeforeLiteral ≠
      .error (.malformed 7 (.outOfRange "1e999")) := by
  have hcall : (Policy.standard.validate callBeforeLiteral).map Formula.source =
      .error (.unknownFunction "g" ⟨0, 4⟩) := by decide +kernel
  intro hsame
  rw [hsame] at hcall
  simp [Except.map] at hcall

theorem evaluate_callBeforeLiteral :
    Policy.standard.evaluate callBeforeLiteral (fun _ => none : Bindings Binary64) ≠
      .error (.malformed 7 (.outOfRange "1e999")) := by
  decide +kernel

/-- Validation stops at the call, and evaluation at a faulty part before the literal. -/
theorem check_malformed_call :
    Policy.standard.check callBeforeLiteral = .error (.malformed 7 (.outOfRange "1e999")) ∧
      ∃ t ps, Interpretation.parse Policy.standard.maxDepth callBeforeLiteral = .ok t ∧
        CutAt (Cursor.ofString callBeforeLiteral) ps ∧
        (∃ name span, .call name span ∈ constructs ps ∧ name ∉ Policy.standard.functions ∧
          span.stop ≤ 7 ∧
          Policy.standard.validate callBeforeLiteral = .error (.unknownFunction name span)) ∧
        ∃ q e, Evaluation.IsFirstFaulty (fun _ => none : Bindings Binary64) t.parts q e ∧
          Evaluation.reachedAt q < 7 ∧
          Policy.standard.evaluate callBeforeLiteral (fun _ => none : Bindings Binary64) =
            .error e := by
  obtain ⟨t, ps, _, ht, hcut, -, hvalidation, hevaluation⟩ :=
    (check_malformed .standard callBeforeLiteral check_callBeforeLiteral).2 _ rfl
  refine ⟨check_callBeforeLiteral, t, ps, ht, hcut, ?_, ?_⟩
  · exact (hvalidation Policy.standard.functions).2 validate_callBeforeLiteral
  · exact (hevaluation Binary64 fun _ => none).2 evaluate_callBeforeLiteral

/-- Neither validation nor evaluation need find what checking finds. -/
theorem check_malformed_unshared :
    Policy.standard.check callBeforeLiteral = .error (.malformed 7 (.outOfRange "1e999")) ∧
      Policy.standard.validate callBeforeLiteral ≠ .error (.malformed 7 (.outOfRange "1e999")) ∧
      Policy.standard.evaluate callBeforeLiteral (fun _ => none : Bindings Binary64) ≠
        .error (.malformed 7 (.outOfRange "1e999")) :=
  ⟨check_callBeforeLiteral, validate_callBeforeLiteral, evaluate_callBeforeLiteral⟩

end MetricFormula
