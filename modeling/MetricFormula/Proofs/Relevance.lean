/-
  Proofs/Relevance: the bindings that an evaluation depends on.

  A term looks up the variables among its own operands and nothing else.  These are
  references of its tree, so two bindings that agree on the references of a tree cannot be
  told apart by a walk over it (`walk_congr`): not by its value, and not by its fault or the
  place of it.  Neither can they be told apart by the text (`evaluate_congr`).
-/
import MetricFormula.Proofs.Bindings

set_option autoImplicit false

namespace MetricFormula

open MetricFormula.Grammar

/-! ## Agreement -/

/-- Two bindings bind the names of some words to the same series, or leave both unbound. -/
def Bindings.AgreeOn {σ : Type} (ls : List Lexeme) (bindings bindings' : Bindings σ) : Prop :=
  ∀ l ∈ ls, bindings l.text = bindings' l.text

namespace Bindings.AgreeOn

variable {σ : Type} {ls ms : List Lexeme} {bindings bindings' : Bindings σ}

theorem mono (h : AgreeOn ms bindings bindings') (hsub : ∀ l ∈ ls, l ∈ ms) :
    AgreeOn ls bindings bindings' :=
  fun l hl => h l (hsub l hl)

theorem append : AgreeOn (ls ++ ms) bindings bindings' ↔
    AgreeOn ls bindings bindings' ∧ AgreeOn ms bindings bindings' :=
  List.forall_mem_append

end Bindings.AgreeOn

/-- Two steps in a row fail alike if the first ones are the same and the second ones are
wherever the first one succeeds. -/
theorem bind_congr_ok {ε α β : Type} {x y : Except ε α} {k k' : α → Except ε β} (h : x = y)
    (hk : ∀ a, x = .ok a → k a = k' a) : x >>= k = y >>= k' := by
  subst h
  cases x with
  | error e => rfl
  | ok a => exact hk a rfl

open Bindings (AgreeOn)

/-! ## Handlers -/

namespace Evaluation

variable {σ : Type} {bindings bindings' : Bindings σ}

theorem resolve_congr {x : Operand σ} (h : AgreeOn x.pending bindings bindings') :
    resolve bindings x = resolve bindings' x := by
  rcases x with a | ⟨name, span⟩
  · rfl
  · rw [resolve, resolve, h ⟨name, span⟩ (List.mem_singleton_self _)]

theorem resolveAll_congr {xs : List (Operand σ)}
    (h : AgreeOn (xs.flatMap Operand.pending) bindings bindings') :
    resolveAll bindings xs = resolveAll bindings' xs := by
  induction xs with
  | nil => rfl
  | cons x xs ih =>
      obtain ⟨hx, hxs⟩ := AgreeOn.append.mp h
      rw [resolveAll, resolveAll, resolve_congr hx, ih hxs]

variable [Series σ]

theorem quotient_congr {numerator denominator : List (Operand σ)} (span : Span)
    (h : AgreeOn (numerator.flatMap Operand.pending ++ denominator.flatMap Operand.pending)
      bindings bindings') :
    quotient bindings numerator denominator span =
      quotient bindings' numerator denominator span := by
  obtain ⟨hnumerator, hdenominator⟩ := AgreeOn.append.mp h
  rw [quotient, quotient, resolveAll_congr hnumerator, resolveAll_congr hdenominator]

/-- What a part leaves to a later step is among its references. -/
theorem Reports.mem_of_pending {α : Type} {cs : List Construct} {ls : List Lexeme}
    {pending : α → List Lexeme} {v : Except Fault α} {a : α}
    (h : Reports bindings cs ls pending v) (hv : v = .ok a) : ∀ l ∈ pending a, l ∈ ls := by
  subst hv
  cases h with
  | value _ hleft _ => exact hleft

end Evaluation

/-! ## The walk -/

namespace Interpretation

open Handled Evaluation

variable {σ : Type} [Series σ] {bindings bindings' : Bindings σ}

mutual

/-- A walk depends on the references of its tree. -/
theorem walk_congr : ∀ {t : ExpressionTree}, AgreeOn t.references bindings bindings' →
    ((evaluation bindings).walk t).outcome = ((evaluation bindings').walk t).outcome
  | .mk span first steps, h => by
      rw [ExpressionTree.references] at h
      obtain ⟨hfirst, hsteps⟩ := AgreeOn.append.mp h
      simp only [walk, outcome_bind]
      refine bind_congr_ok (walkTerm_congr hfirst) fun a _ => ?_
      exact bind_congr_ok (walkSteps_congr hsteps) fun as _ => rfl

theorem walkSteps_congr : ∀ {steps : List ExpressionStep},
    AgreeOn (ExpressionTree.stepReferences steps) bindings bindings' →
    ((evaluation bindings).walkSteps steps).outcome =
      ((evaluation bindings').walkSteps steps).outcome
  | [], _ => rfl
  | .mk operator place term :: steps, h => by
      rw [ExpressionTree.stepReferences] at h
      obtain ⟨hterm, hsteps⟩ := AgreeOn.append.mp h
      simp only [walkSteps, walkStep, outcome_bind, walkTerm_congr hterm, walkSteps_congr hsteps]

theorem walkTerm_congr : ∀ {t : TermTree}, AgreeOn t.references bindings bindings' →
    ((evaluation bindings).walkTerm t).outcome = ((evaluation bindings').walkTerm t).outcome
  | .mk span first steps, h => by
      rw [TermTree.references] at h
      obtain ⟨hfirst, hsteps⟩ := AgreeOn.append.mp h
      simp only [walkTerm, outcome_bind]
      refine bind_congr_ok (walkFactor_congr hfirst) fun a ha => ?_
      refine bind_congr_ok (walkTermSteps_congr hsteps) fun as has => ?_
      -- The operands that the term looks up are references of its tree.
      have hpending := (walkFactor_holds (evaluation_accounts bindings) first).mem_of_pending ha
      have hpendings :=
        (walkTermSteps_holds (evaluation_accounts bindings) steps).mem_of_pending has
      refine quotient_congr span (h.mono fun l hl => ?_)
      rcases List.mem_append.mp (mem_pending_operands.mp hl) with hl | hl
      · exact List.mem_append_left _ (hpending l hl)
      · exact List.mem_append_right _ (hpendings l hl)

theorem walkTermSteps_congr : ∀ {steps : List TermStep},
    AgreeOn (TermTree.stepReferences steps) bindings bindings' →
    ((evaluation bindings).walkTermSteps steps).outcome =
      ((evaluation bindings').walkTermSteps steps).outcome
  | [], _ => rfl
  | .mk operator place factor :: steps, h => by
      rw [TermTree.stepReferences] at h
      obtain ⟨hfactor, hsteps⟩ := AgreeOn.append.mp h
      simp only [walkTermSteps, walkTermStep, outcome_bind, walkFactor_congr hfactor,
        walkTermSteps_congr hsteps]

/-- A call is refused before its arguments are looked at. -/
theorem walkFactor_congr : ∀ {x : FactorTree}, AgreeOn x.references bindings bindings' →
    ((evaluation bindings).walkFactor x).outcome = ((evaluation bindings').walkFactor x).outcome
  | .call _ _ _ _, _ => by
      simp only [walkFactor, outcome_bind]
      exact bind_congr_ok rfl fun _ hentered => nomatch hentered
  | .reference _ _, _ => rfl
  | .constant literal, _ => by
      simp only [walkFactor, outcome_bind]
      exact bind_congr_ok rfl fun _ _ => rfl
  | .group inner, h => by
      simp only [walkFactor, outcome_bind]
      exact bind_congr_ok (walk_congr h) fun a _ => rfl

end

end Interpretation

/-! ## Texts -/

/-- Bindings that agree on the names that the text shows as variables cannot be told apart by
evaluating it: the value is the same, or the fault and its place are.  A text that is a formula
is cut into tokens in exactly one way. -/
theorem evaluate_congr {σ : Type} [Series σ] {p : Policy} {source : String}
    {bindings bindings' : Bindings σ}
    (h : ∀ ps, CutAt (Cursor.ofString source) ps → AgreeOn (references ps) bindings bindings') :
    p.evaluate source bindings = p.evaluate source bindings' := by
  rw [Policy.evaluate_eq, Policy.evaluate_eq]
  refine bind_congr_ok rfl fun t ht => ?_
  obtain ⟨ps, hcut, -, hreferences⟩ := Interpretation.exists_cut_of_parse ht
  have hagree := h ps ((hcut ps).mpr rfl)
  rw [hreferences] at hagree
  exact Interpretation.walk_congr hagree

/-- A text that fails in several ways: a variable without a series, a zero in a denominator and
a call. -/
def manyFaults : String := "x / (y - y) * f1 + f(x)"

/-- Bindings with a number also for the name of the function, which is not a variable. -/
def functionBindings : Bindings Binary64 := fun name =>
  if name = "f" then some .one else numberBindings name

theorem evaluate_congr_manyFaults :
    functionBindings "f" ≠ numberBindings "f" ∧
      Policy.standard.evaluate manyFaults numberBindings =
        .error (.unboundVariable "f1" ⟨14, 16⟩) ∧
      Policy.standard.evaluate manyFaults functionBindings =
        .error (.unboundVariable "f1" ⟨14, 16⟩) := by
  have hfault : Policy.standard.evaluate manyFaults numberBindings =
      .error (.unboundVariable "f1" ⟨14, 16⟩) := by decide +kernel
  have hnames : (Interpretation.parse Policy.defaultMaxDepth manyFaults).map
      (fun t => t.references.map Lexeme.text) = .ok ["x", "y", "y", "f1", "x"] := by decide +kernel
  obtain ⟨qs, hcut, hreferences⟩ := Interpretation.exists_cut_of_names hnames
  refine ⟨by decide, hfault, hfault ▸ evaluate_congr fun ps hps l hl => ?_⟩
  obtain rfl := (hcut ps).mp hps
  have hname : l.text ∈ ["x", "y", "y", "f1", "x"] := hreferences ▸ List.mem_map_of_mem hl
  have hne : l.text ≠ "f" := fun h => by
    rw [h] at hname
    exact absurd hname (by decide)
  exact if_neg hne

end MetricFormula
