/-
  Proofs/Bindings: which variables have to be bound for an evaluation.

  Validation and evaluation deal with the same variables.  `Reports bindings cs ls pending v`
  says what may come of a part of a formula with the constructs `cs` and the references
  `ls`: a value only if there is no call and every reference is bound or left to a later
  step, and otherwise a fault that one of them explains, a zero in a denominator, or a
  mismatch of lengths.  It is the account of a walk (`evaluation_accounts`).

  Over numbers nothing mismatches, so the variables that validation reports are exactly
  those that evaluation needs (`evaluate_bindings`).
-/
import MetricFormula.Proofs.Interpretation.Failure
import MetricFormula.Proofs.Variables

set_option autoImplicit false

namespace MetricFormula

open MetricFormula.Grammar

/-! ## Mismatches -/

/-- Some operation on series fails with a mismatch of lengths. -/
def Series.Mismatches (σ : Type) [Series σ] (cause : LengthMismatch) : Prop :=
  (∃ xs : List σ, Series.sum xs = .error cause) ∨
    ∃ x y : σ, Series.sub x y = .error cause ∨ Series.mul x y = .error cause ∨
      Series.div x y = .error cause

/-- Numbers always fit together. -/
theorem not_mismatches_binary64 (cause : LengthMismatch) :
    ¬Series.Mismatches Binary64 cause := by
  rintro (⟨xs, h⟩ | ⟨x, y, h | h | h⟩) <;> cases h

/-- A product fails where one of its multiplications does. -/
theorem Evaluation.mismatches_of_foldlM {σ : Type} [Series σ] {xs : List σ} {x : σ}
    {cause : LengthMismatch} (h : xs.foldlM Series.mul x = .error cause) :
    Series.Mismatches σ cause := by
  induction xs generalizing x with
  | nil => simp [pure, Except.pure] at h
  | cons y ys ih =>
      rw [List.foldlM_cons] at h
      cases hmul : Series.mul x y with
      | error cause' =>
          rw [hmul] at h
          obtain rfl := Except.error.inj h
          exact Or.inr ⟨x, y, Or.inr (Or.inl hmul)⟩
      | ok z =>
          rw [hmul] at h
          exact ih h

/-! ## Bound names -/

/-- Every name of a set is bound. -/
def Bindings.Binds {σ : Type} (bindings : Bindings σ) (names : NameSet) : Prop :=
  ∀ name ∈ names, (bindings name).isSome = true

namespace Evaluation

variable {σ α β : Type} [Series σ] {bindings : Bindings σ}

/-! ## What is reported -/

/-- What may come of a step that meets constructs and is responsible for references. -/
inductive Reports (bindings : Bindings σ) (cs : List Construct) (ls : List Lexeme)
    (pending : α → List Lexeme) : Except Fault α → Prop
  | value {a : α} : (∀ name span, .call name span ∉ cs) → (∀ l ∈ pending a, l ∈ ls) →
      (∀ l ∈ ls, l ∈ pending a ∨ (bindings l.text).isSome = true) →
      Reports bindings cs ls pending (.ok a)
  | call {name : String} {span : Span} : .call name span ∈ cs →
      Reports bindings cs ls pending (.error (.unsupported .call span))
  | literal {text : String} {span : Span} {e : Fault} : .literal text span ∈ cs →
      literalValue text span = .error e → Reports bindings cs ls pending (.error e)
  | unbound {l : Lexeme} : l ∈ ls → bindings l.text = none →
      Reports bindings cs ls pending (.error (.unboundVariable l.text l.span))
  | divisionByZero {span : Span} : Reports bindings cs ls pending (.error (.divisionByZero span))
  | series {cause : LengthMismatch} : Series.Mismatches σ cause →
      Reports bindings cs ls pending (.error (.series cause))

namespace Reports

variable {cs ds : List Construct} {ls ms held : List Lexeme} {pending : α → List Lexeme}
  {pending' : β → List Lexeme} {v : Except Fault α} {w : α → Except Fault β}

theorem pure (pending : α → List Lexeme) (a : α) :
    Reports bindings [] (pending a) pending (.ok a) :=
  .value (by simp) (fun _ hl => hl) fun _ hl => Or.inl hl

/-- With more constructs and references, a fault is still explained. -/
theorem mono_error {e : Fault} (h : Reports bindings cs ls pending (.error e))
    (hcs : ∀ c ∈ cs, c ∈ ds) (hls : ∀ l ∈ ls, l ∈ ms) :
    Reports bindings ds ms pending' (.error e) := by
  cases h with
  | call hc => exact .call (hcs _ hc)
  | literal hc he => exact .literal (hcs _ hc) he
  | unbound hl hnone => exact .unbound (hls _ hl) hnone
  | divisionByZero => exact .divisionByZero
  | series hcause => exact .series hcause

theorem congr (h : Reports bindings cs ls pending v) (hcs : ∀ c, c ∈ cs ↔ c ∈ ds)
    (hls : ∀ l, l ∈ ls ↔ l ∈ ms) : Reports bindings ds ms pending v := by
  cases v with
  | error e => exact h.mono_error (fun c => (hcs c).mp) fun l => (hls l).mp
  | ok a =>
      cases h with
      | value hcalls hleft hbound =>
          refine .value (fun name span hc => hcalls name span ((hcs _).mpr hc)) ?_ ?_
          · exact fun l hl => (hls l).mp (hleft l hl)
          · exact fun l hl => hbound l ((hls l).mpr hl)

theorem bind (hv : Reports bindings cs ls pending v)
    (hw : ∀ a, Reports bindings ds (pending a ++ held) pending' (w a)) :
    Reports bindings (cs ++ ds) (ls ++ held) pending' (v >>= w) := by
  cases v with
  | error e =>
      exact hv.mono_error (fun c => List.mem_append_left ds) fun l => List.mem_append_left held
  | ok a =>
      cases hv with
      | value hcalls hleft hbound =>
          have hsub : ∀ l ∈ pending a ++ held, l ∈ ls ++ held := fun l hl =>
            (List.mem_append.mp hl).elim (fun h => List.mem_append_left held (hleft l h))
              (List.mem_append_right ls)
          have hwa := hw a
          change Reports bindings (cs ++ ds) (ls ++ held) pending' (w a)
          cases hresult : w a with
          | error e =>
              rw [hresult] at hwa
              exact hwa.mono_error (fun c => List.mem_append_right cs) hsub
          | ok b =>
              rw [hresult] at hwa
              cases hwa with
              | value hcalls' hleft' hbound' =>
                  refine .value (fun name span hc => ?_) (fun l hl => hsub l (hleft' l hl)) ?_
                  · exact (List.mem_append.mp hc).elim (hcalls name span) (hcalls' name span)
                  · intro l hl
                    rcases List.mem_append.mp hl with hl | hl
                    · rcases hbound l hl with hl | hsome
                      · exact hbound' l (List.mem_append_left held hl)
                      · exact Or.inr hsome
                    · exact hbound' l (List.mem_append_right _ hl)

/-- A step that leaves nothing, and then another one. -/
theorem andThen (hv : Reports bindings cs ls nothingPending v)
    (hw : ∀ a, Reports bindings ds ms pending' (w a)) :
    Reports bindings (cs ++ ds) (ls ++ ms) pending' (v >>= w) :=
  hv.bind hw

/-- A step that is responsible for nothing, and then another one. -/
theorem skip (hv : Reports bindings [] [] nothingPending v)
    (hw : ∀ a, Reports bindings ds ms pending' (w a)) : Reports bindings ds ms pending' (v >>= w) :=
  hv.andThen hw

/-- A step that leaves nothing, and then one that is responsible for nothing. -/
theorem finish (hv : Reports bindings cs ls nothingPending v)
    (hw : ∀ a, Reports bindings [] [] pending' (w a)) :
    Reports bindings cs ls pending' (v >>= w) := by
  have h := hv.andThen hw
  rwa [List.append_nil, List.append_nil] at h

end Reports

/-- What is reported along a walk. -/
def reporting (bindings : Bindings σ) : Account Unit where
  Holds cs ls pending x := Reports bindings cs ls pending x.outcome
  pure := Reports.pure
  bind hx hk := by
    rw [Handled.outcome_bind]
    exact hx.bind hk
  congr := Reports.congr

/-! ## Handlers -/

/-- A value without conditions. -/
theorem reports_value (a : α) : Reports bindings [] [] nothingPending (.ok a) :=
  .pure nothingPending a

theorem lift_reports {x : Except LengthMismatch σ}
    (hx : ∀ cause, x = .error cause → Series.Mismatches σ cause) :
    Reports bindings [] [] nothingPending (lift x) := by
  cases x with
  | error cause => exact .series (hx cause rfl)
  | ok a => exact reports_value a

theorem sum_reports (xs : List σ) :
    Reports bindings [] [] nothingPending (lift (Series.sum xs)) :=
  lift_reports fun _ h => Or.inl ⟨xs, h⟩

theorem product_reports (xs : List σ) :
    Reports bindings [] [] nothingPending (lift (Series.product xs)) :=
  lift_reports fun _ h => mismatches_of_foldlM h

theorem difference_reports (positive negative : List σ) :
    Reports bindings [] [] nothingPending (difference positive negative) := by
  refine (sum_reports positive).finish fun total => ?_
  by_cases hempty : negative.isEmpty = true
  · rw [if_pos hempty]
    exact reports_value total
  · rw [if_neg hempty]
    refine (sum_reports negative).finish fun subtrahend => ?_
    exact lift_reports fun _ h => Or.inr ⟨total, subtrahend, Or.inl h⟩

theorem resolve_reports : ∀ x : Operand σ,
    Reports bindings [] x.pending nothingPending (resolve bindings x)
  | .value a => reports_value a
  | .variable name span => by
      rw [resolve]
      cases hname : bindings name with
      | none => exact .unbound (List.mem_singleton_self (⟨name, span⟩ : Lexeme)) hname
      | some a =>
          refine .value (by simp) (by simp [nothingPending]) fun l hl => Or.inr ?_
          obtain rfl := List.mem_singleton.mp hl
          simp [hname]

theorem resolveAll_reports (xs : List (Operand σ)) :
    Reports bindings [] (xs.flatMap Operand.pending) nothingPending (resolveAll bindings xs) := by
  induction xs with
  | nil => exact reports_value []
  | cons x xs ih =>
      rw [List.flatMap_cons]
      exact (resolve_reports x).andThen fun y => ih.finish fun ys => reports_value (y :: ys)

theorem quotient_reports (numerator denominator : List (Operand σ)) (span : Span) :
    Reports bindings []
      (numerator.flatMap Operand.pending ++ denominator.flatMap Operand.pending) nothingPending
      (quotient bindings numerator denominator span) := by
  refine (resolveAll_reports numerator).andThen fun xs => ?_
  refine (product_reports xs).skip fun dividend => ?_
  by_cases hempty : denominator.isEmpty = true
  · rw [if_pos hempty, List.isEmpty_iff.mp hempty]
    exact reports_value dividend
  · rw [if_neg hempty]
    refine (resolveAll_reports denominator).finish fun ys => ?_
    refine (product_reports ys).finish fun divisor => ?_
    by_cases hzero : Series.containsZero divisor = true
    · rw [if_pos hzero]
      exact .divisionByZero
    · rw [if_neg hzero]
      exact lift_reports fun _ h => Or.inr ⟨dividend, divisor, Or.inr (Or.inr h)⟩

theorem constant_reports (literal : String) (span : Span) :
    Reports bindings [.literal literal span] [] nothingPending
      ((literalValue literal span).map Series.broadcast : Except Fault σ) := by
  cases hvalue : literalValue literal span with
  | error e => exact .literal List.mem_cons_self hvalue
  | ok x => exact .value (by simp) (by simp [nothingPending]) (by simp)

/-- Terms look up their operands, a call has no value, and a literal may have none. -/
theorem evaluation_accounts (bindings : Bindings σ) :
    (Interpretation.evaluation bindings).Accounts (reporting bindings) where
  expression positive negative _ := difference_reports positive negative
  term := quotient_reports
  enterCall _ _ := .call List.mem_cons_self
  call _ _ _ := .call List.mem_cons_self
  constant := constant_reports
  group value _ := reports_value value

/-- A whole walk leaves no variable to a later step. -/
theorem walk_reports (bindings : Bindings σ) (t : ExpressionTree) :
    Reports bindings t.constructs t.references nothingPending
      ((Interpretation.evaluation bindings).walk t).outcome :=
  Interpretation.walk_holds (evaluation_accounts bindings) t

end Evaluation

/-! ## Texts -/

/-- A text that checking accepts has a parse tree, and no literal in it is out of range. -/
theorem Policy.check_eq_ok {p : Policy} {source : String} (h : p.check source = .ok ()) :
    ∃ t, Interpretation.parse p.maxDepth source = .ok t ∧ literalFault? t.constructs = none := by
  cases ht : Interpretation.parse p.maxDepth source with
  | error e =>
      rw [Policy.check_eq, ht] at h
      simp [bind, Except.bind] at h
  | ok t =>
      refine ⟨t, rfl, Option.eq_none_iff_forall_ne_some.mpr fun e he => ?_⟩
      rw [(Policy.check_eq_error_iff ht).mpr he] at h
      simp at h

/-- Literals in range and no calls offend against no policy. -/
theorem findSome?_fault?_eq_none {cs : List Construct} (hliterals : literalFault? cs = none)
    (hcalls : ∀ name span, .call name span ∉ cs) (allowed : String → Bool) :
    cs.findSome? (Construct.fault? allowed) = none := by
  refine List.findSome?_eq_none_iff.mpr fun c hc => ?_
  cases c with
  | literal text span => exact List.findSome?_eq_none_iff.mp hliterals _ hc
  | call name span => exact absurd hc (hcalls name span)

/-- A part with a call has no value. -/
theorem Evaluation.Reports.error_of_call {σ α : Type} [Series σ] {bindings : Bindings σ}
    {cs : List Construct} {ls : List Lexeme} {pending : α → List Lexeme} {v : Except Fault α}
    {name : String} {span : Span} (h : Reports bindings cs ls pending v)
    (hcall : .call name span ∈ cs) : ∃ e, v = .error e := by
  cases h with
  | value hcalls _ _ => exact absurd hcall (hcalls name span)
  | _ => exact ⟨_, rfl⟩

/-- Over numbers, the names that a part without calls and with its literals in range refers to
are those that it needs. -/
theorem Evaluation.Reports.of_no_call {α : Type} {bindings : Bindings Binary64}
    {cs : List Construct} {ls : List Lexeme} {names : NameSet} {v : Except Fault α}
    (h : Reports bindings cs ls nothingPending v) (hliterals : literalFault? cs = none)
    (hcalls : ∀ name span, .call name span ∉ cs)
    (hnames : ∀ name, name ∈ names ↔ ∃ l ∈ ls, l.text = name) :
    (∀ a, v = .ok a → bindings.Binds names) ∧
      (∀ name span, v = .error (.unboundVariable name span) →
        name ∈ names ∧ bindings name = none) ∧
      (bindings.Binds names → (∃ a, v = .ok a) ∨ ∃ span, v = .error (.divisionByZero span)) := by
  cases h with
  | value _ _ hbound =>
      refine ⟨fun _ _ name hname => ?_, by simp, fun _ => Or.inl ⟨_, rfl⟩⟩
      obtain ⟨l, hl, rfl⟩ := (hnames name).mp hname
      exact (hbound l hl).resolve_left List.not_mem_nil
  | call hc => exact absurd hc (hcalls _ _)
  | literal hc he =>
      have hnone := List.findSome?_eq_none_iff.mp hliterals _ hc
      rw [literalValue_eq_error_iff.mp he] at hnone
      simp at hnone
  | @unbound l hl hunbound =>
      have hmem : l.text ∈ names := (hnames _).mpr ⟨l, hl, rfl⟩
      refine ⟨by simp, fun name span heq => ?_, fun hbinds => ?_⟩
      · obtain ⟨rfl, -⟩ := Fault.unboundVariable.inj (Except.error.inj heq)
        exact ⟨hmem, hunbound⟩
      · have hsome := hbinds _ hmem
        simp [hunbound] at hsome
  | divisionByZero => exact ⟨by simp, by simp, fun _ => Or.inr ⟨_, rfl⟩⟩
  | series hcause => exact absurd hcause (not_mismatches_binary64 _)

/-- Evaluating a text that checking accepts fails if there is a call in it.  Otherwise the
text is validated without any functions, and the variables that validation reports are
those that evaluation needs: there is a value only if all of them are bound, only an
unbound one of them is reported as unbound, and if all are bound there is a value or a
division by zero. -/
theorem evaluate_bindings {p : Policy} {source : String} (h : p.check source = .ok ())
    (bindings : Bindings Binary64) :
    ∃ ps, (∀ qs, CutAt (Cursor.ofString source) qs ↔ qs = ps) ∧
      ((∃ name span, .call name span ∈ constructs ps) →
        ∃ e, p.evaluate source bindings = .error e) ∧
      ((∀ name span, .call name span ∉ constructs ps) →
        ∃ f, (p.withFunctions []).validate source = .ok f ∧
          (∀ x, p.evaluate source bindings = .ok x → bindings.Binds f.freeVariables) ∧
          (∀ name span, p.evaluate source bindings = .error (.unboundVariable name span) →
            name ∈ f.freeVariables ∧ bindings name = none) ∧
          (bindings.Binds f.freeVariables →
            (∃ x, p.evaluate source bindings = .ok x) ∨
              ∃ span, p.evaluate source bindings = .error (.divisionByZero span))) := by
  obtain ⟨t, ht, hliterals⟩ := Policy.check_eq_ok h
  obtain ⟨ps, hcut, hconstructs, -⟩ := Interpretation.exists_cut_of_parse ht
  have hreports : Evaluation.Reports bindings t.constructs t.references nothingPending
      (p.evaluate source bindings) := by
    rw [Policy.evaluate_eq, ht]
    exact Interpretation.walk_holds (Evaluation.evaluation_accounts bindings) t
  refine ⟨ps, hcut, ?_, ?_⟩
  · rintro ⟨name, span, hcall⟩
    exact hreports.error_of_call ((hconstructs _).mp hcall)
  · intro hnone
    have hcalls : ∀ name span, .call name span ∉ t.constructs := fun name span hc =>
      hnone name span ((hconstructs _).mpr hc)
    obtain ⟨f, hf⟩ := (Policy.exists_validate_iff (p := p.withFunctions []) ht).mpr
      (findSome?_fault?_eq_none hliterals hcalls _)
    have hfree : ∀ name, name ∈ f.freeVariables ↔ ∃ l ∈ t.references, l.text = name := by
      intro name
      rw [Policy.freeVariables_of_parse (p := p.withFunctions []) ht hf, NameSet.mem_ofList,
        List.mem_map]
    exact ⟨f, hf, hreports.of_no_call hliterals hcalls hfree⟩

/-- A number for each of two names, and nothing for any other. -/
def numberBindings : Bindings Binary64
  | "x" => some .one
  | "y" => some .two
  | _ => none

theorem evaluate_bindings_number :
    Policy.standard.check "y / (y - x)" = .ok () ∧
      Policy.standard.evaluate "y / (y - x)" numberBindings = .ok .two ∧
      ∃ f, (Policy.standard.withFunctions []).validate "y / (y - x)" = .ok f ∧
        numberBindings.Binds f.freeVariables := by
  have hcheck : Policy.standard.check "y / (y - x)" = .ok () := by decide +kernel
  have hvalue : Policy.standard.evaluate "y / (y - x)" numberBindings = .ok .two := by
    decide +kernel
  obtain ⟨ps, -, hcall, hfree⟩ := evaluate_bindings hcheck numberBindings
  have hnone : ∀ name span, .call name span ∉ constructs ps := fun name span hmem => by
    obtain ⟨e, he⟩ := hcall ⟨name, span, hmem⟩
    rw [hvalue] at he
    simp at he
  obtain ⟨f, hf, hbinds, -⟩ := hfree hnone
  exact ⟨hcheck, hvalue, f, hf, hbinds _ hvalue⟩

end MetricFormula
