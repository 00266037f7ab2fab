/-
  Proofs/WellFormedness: what every formula that validation returns can be relied on for.

  The grammar lets no list that needs a member be empty and no word be anything but a name or
  a numeral; numerals are converted to finite numbers without a sign or refused; calls are held
  against the allowed functions; and the look over the parentheses bounds the depth.  So a
  formula that validation returns is well-formed throughout and nests no deeper than the policy
  allows (`validate_wellFormed`).
-/
import MetricFormula.Proofs.Ast.Admitted
import MetricFormula.Proofs.Sentences
import Mathlib.Control.Monad.Basic

set_option autoImplicit false

namespace MetricFormula

open MetricFormula.Grammar

variable {p : Policy} {source : String}

/-- A validated text has a derivation that the policy allows, and its formula is the sum of
that derivation. -/
theorem exists_derives_of_validate {f : Formula} (h : p.validate source = .ok f) :
    ∃ t ts, Interpretation.parse p.maxDepth source = .ok t ∧ Derives source ts t.phrase ∧
      p.Allows t.phrase ∧ f.ast = t.phrase.sum := by
  obtain ⟨t, ht, hadmits, hast⟩ := validate_eq_ok_iff.mp ⟨f, h, rfl⟩
  obtain ⟨ts, hderives, hdepth⟩ := parse_eq_ok_iff.mp ⟨t, ht, rfl⟩
  exact ⟨t, ts, ht, hderives, ⟨hdepth, hadmits.1, hadmits.2⟩, hast⟩

/-- The sum of a derivation that the policy allows is well-formed. -/
theorem Derives.wellFormed_sum {ts : List Token} {e : ExpressionPhrase} (h : Derives source ts e)
    (hallows : p.Allows e) : e.sum.WellFormed p.functions :=
  h.sentence.wellFormed_sum h.cut.valid ⟨hallows.literals, hallows.calls⟩

/-- The formula of a validated text is well-formed at every node, and no more than `maxDepth`
sums stand inside each other in it, the outermost one included.  A policy without any depth
still allows that one. -/
theorem validate_wellFormed {f : Formula} (h : p.validate source = .ok f) :
    f.ast.WellFormed p.functions ∧ f.ast.depth + 1 ≤ max p.maxDepth 1 := by
  obtain ⟨t, ts, -, hderives, hallows, hast⟩ := exists_derives_of_validate h
  have hdepth : f.ast.depth = 0 ∨ f.ast.depth < p.maxDepth := by
    rw [hast, t.phrase.depth_sum]
    exact hallows.depth
  refine ⟨hast ▸ hderives.wellFormed_sum hallows, ?_⟩
  omega

/-- A text with a call inside a group inside a call, at the greatest depth that is allowed. -/
def deepestCall : String := "f((.5 - f(x_1)), 2) / y"

theorem validate_wellFormed_deepestCall :
    ∃ f, ((Policy.standard.withFunctions ["f"]).withMaxDepth 4).validate deepestCall = .ok f ∧
      f.ast.depth + 1 = 4 ∧ f.ast.WellFormed (.ofList ["f"]) ∧ f.ast.depth + 1 ≤ 4 := by
  have hdepth : (((Policy.standard.withFunctions ["f"]).withMaxDepth 4).validate
      deepestCall).map (fun f => f.ast.depth + 1) = .ok 4 := by decide +kernel
  cases hvalidate : ((Policy.standard.withFunctions ["f"]).withMaxDepth 4).validate
      deepestCall with
  | error e => simp [hvalidate, Except.map] at hdepth
  | ok f =>
      simp only [hvalidate, Except.map, Except.ok.injEq] at hdepth
      exact ⟨f, rfl, hdepth, validate_wellFormed hvalidate⟩

end MetricFormula
