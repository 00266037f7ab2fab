/-
  Proofs/Sentences: the texts that validation accepts, and what it makes of them.

  A text has a derivation if its tokens, cut by maximal munch, are a sentence of the
  grammar.  Validation accepts it exactly if the parentheses of the sentence nest few
  enough levels, its literals are finite and the functions it calls are allowed, and
  the formula is then the sum of the derivation (`validate_iff_derivation`).
-/
import MetricFormula.Formula
import MetricFormula.Proofs.Grammar.Sound
import MetricFormula.Proofs.Grammar.Complete
import MetricFormula.Proofs.Interpretation.Outcome
import MetricFormula.Proofs.Interpretation.Validation
import MetricFormula.Proofs.Nesting

set_option autoImplicit false

namespace MetricFormula

open MetricFormula.Grammar

/-! ## Sentences -/

/-- The text, cut into tokens, is a sentence of the grammar with derivation `e`. -/
structure Derives (source : String) (ts : List Token) (e : ExpressionPhrase) : Prop where
  cut : Cut source.toList ts
  sentence : IsExpression ts e []

/-- A policy allows a derivation: it has no parentheses or they nest fewer levels than
the limit, its literals are finite, and the functions that it calls are allowed. -/
structure Policy.Allows (p : Policy) (e : ExpressionPhrase) : Prop where
  depth : e.depth = 0 ∨ e.depth < p.maxDepth
  literals : ∀ l ∈ e.literals, (literalNumber l).isFinite = true
  calls : ∀ f ∈ e.calls, String.ofList f ∈ p.functions

theorem Derives.unique {source : String} {ts ts' : List Token} {e e' : ExpressionPhrase}
    (h : Derives source ts e) (h' : Derives source ts' e') : ts = ts' ∧ e = e' := by
  obtain rfl := h.cut.unique h'.cut
  exact ⟨rfl, h.sentence.unique h.cut h'.sentence⟩

/-! ## Parsing -/

/-- A text has a parse tree exactly if it is a sentence whose parentheses nest few
enough levels. -/
theorem parse_eq_ok_iff {maxDepth : Nat} {source : String} {e : ExpressionPhrase} :
    (∃ t, Interpretation.parse maxDepth source = .ok t ∧ t.phrase = e) ↔
      ∃ ts, Derives source ts e ∧ (e.depth = 0 ∨ e.depth < maxDepth) := by
  constructor
  · rintro ⟨t, hparse, rfl⟩
    obtain ⟨hcheck, htree⟩ := Interpretation.parse_eq_ok.mp hparse
    obtain ⟨ts, hcut, hsentence⟩ := tree_sound htree
    exact ⟨ts, ⟨hcut, hsentence⟩, (Nesting.check_eq_ok_iff hcut hsentence).mp hcheck⟩
  · rintro ⟨ts, ⟨hcut, hsentence⟩, hdepth⟩
    obtain ⟨t, htree, rfl⟩ := tree_complete hcut hsentence
    have hcheck := (Nesting.check_eq_ok_iff hcut hsentence).mpr hdepth
    exact ⟨t, Interpretation.parse_eq_ok.mpr ⟨hcheck, htree⟩, rfl⟩

/-! ## Validation -/

theorem validate_eq_ok_iff {p : Policy} {source : String} {s : Sum} :
    (∃ f, p.validate source = .ok f ∧ f.ast = s) ↔
      ∃ t, Interpretation.parse p.maxDepth source = .ok t ∧
        Validation.Admits p.functions t.phrase.literals t.phrase.calls ∧ s = t.phrase.sum := by
  unfold Policy.validate Interpretation.run
  cases hparse : Interpretation.parse p.maxDepth source with
  | error fault => simp
  | ok t =>
      have hwalk := @Validation.walk_answers p.functions t .empty
      dsimp only
      rcases hrun : ((Interpretation.validation p.functions).walk t).runFrom .empty with ⟨r, names⟩
      rw [hrun] at hwalk
      cases r with
      | error fault =>
          have hnot := hwalk t.phrase.sum
          simp only [reduceCtorEq, false_iff, and_true] at hnot
          simp [hnot]
      | ok ast =>
          have hast : ast = s ↔ _ := ⟨fun h => (hwalk s).mp (congrArg Except.ok h),
            fun h => Except.ok.inj ((hwalk s).mpr h)⟩
          simp [hast]

/-- A derivation that the policy allows is validated to its sum. -/
theorem Derives.validate {p : Policy} {source : String} {ts : List Token} {e : ExpressionPhrase}
    (h : Derives source ts e) (hallows : p.Allows e) :
    ∃ f, p.validate source = .ok f ∧ f.ast = e.sum := by
  obtain ⟨t, hparse, rfl⟩ := parse_eq_ok_iff.mpr ⟨ts, h, hallows.depth⟩
  exact validate_eq_ok_iff.mpr ⟨t, hparse, ⟨hallows.literals, hallows.calls⟩, rfl⟩

/-- Validation accepts exactly the sentences whose derivation the policy allows, and
makes of each the sum of its derivation.  A text has at most one derivation. -/
theorem validate_iff_derivation (p : Policy) (source : String) :
    (∀ s : Sum, (∃ f, p.validate source = .ok f ∧ f.ast = s) ↔
      ∃ ts e, Derives source ts e ∧ p.Allows e ∧ e.sum = s) ∧
    ∀ ts e ts' e', Derives source ts e → Derives source ts' e' → ts = ts' ∧ e = e' := by
  refine ⟨?_, fun _ _ _ _ h h' => h.unique h'⟩
  intro s
  constructor
  · intro h
    obtain ⟨t, hparse, ⟨hliterals, hcalls⟩, rfl⟩ := validate_eq_ok_iff.mp h
    obtain ⟨ts, hderives, hdepth⟩ := parse_eq_ok_iff.mp ⟨t, hparse, rfl⟩
    exact ⟨ts, t.phrase, hderives, ⟨hdepth, hliterals, hcalls⟩, rfl⟩
  · rintro ⟨ts, e, hderives, hallows, rfl⟩
    exact hderives.validate hallows

end MetricFormula
