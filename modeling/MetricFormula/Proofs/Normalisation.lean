/-
  Proofs/Normalisation: evaluating a formula in its normal form.

  The normal form of a validated formula may order its terms and factors differently from
  the text, and writes its numerals anew.  It is a text of the same formula all the same
  (`exists_parse_display`), and whether a text has a value, and which, depends on the formula
  alone (`Policy.evaluate_of_parse`), since the two lists of every sum and of every product
  are reduced in the order that the formula keeps.
-/
import MetricFormula.Proofs.Ast.Printer
import MetricFormula.Proofs.Bindings
import MetricFormula.Proofs.Interpretation.Value
import MetricFormula.Proofs.WellFormedness

set_option autoImplicit false

namespace MetricFormula

open MetricFormula.Grammar

/-- A validated text and the normal form of its formula are parsed to trees of one formula. -/
theorem exists_parse_display {p : Policy} {source : String} {f : Formula}
    (h : p.validate source = .ok f) :
    ∃ t u, Interpretation.parse p.maxDepth source = .ok t ∧
      Interpretation.parse p.maxDepth f.display = .ok u ∧
      t.phrase.sum = f.ast ∧ u.phrase.sum = f.ast := by
  obtain ⟨t, ts, ht, hderives, hallows, hast⟩ := exists_derives_of_validate h
  have hwellFormed : f.ast.WellFormed p.functions := hast ▸ hderives.wellFormed_sum hallows
  obtain ⟨e, he, hwritten⟩ := hwellFormed.written
  obtain ⟨us, hcut', hsentence'⟩ := hwritten [] [] .nil
  rw [List.append_nil] at hcut'
  have hdisplay : Derives f.display us e := by
    refine ⟨?_, hsentence'⟩
    rwa [Formula.display, Sum.display, String.toList_ofList]
  -- Groups and calls nest as deeply in the formula as parentheses do in either text.
  have hdepth : e.depth = 0 ∨ e.depth < p.maxDepth := by
    rw [← e.depth_sum, he, hast, t.phrase.depth_sum]
    exact hallows.depth
  obtain ⟨u, hu, rfl⟩ := parse_eq_ok_iff.mpr ⟨us, hdisplay, hdepth⟩
  exact ⟨t, u, ht, hu, hast.symm, he⟩

/-- A validated text has a value exactly if the normal form of its formula has it, whatever
functions were allowed. -/
theorem evaluate_display {p : Policy} {functions : List String} {source : String} {f : Formula}
    (h : (p.withFunctions functions).validate source = .ok f) {σ : Type} [Series σ]
    (bindings : Bindings σ) (v : σ) :
    p.evaluate source bindings = .ok v ↔ p.evaluate f.display bindings = .ok v := by
  obtain ⟨t, u, ht, hu, htsum, husum⟩ := exists_parse_display h
  rw [Policy.evaluate_of_parse (p := p) ht, Policy.evaluate_of_parse (p := p) hu, htsum, husum]

/-- A text whose normal form has its terms and factors in another order and its numeral in
another form. -/
def unordered : String := "x / y * x - y+1.00e-1*y"

theorem evaluate_display_unordered :
    ∃ f, (Policy.standard.withFunctions []).validate unordered = .ok f ∧
      f.display = "x * x / y + 0.1 * y - y" ∧
      ∃ v, Policy.standard.evaluate unordered numberBindings = .ok v ∧
        Policy.standard.evaluate f.display numberBindings = .ok v := by
  have hdisplay : ((Policy.standard.withFunctions []).validate unordered).map Formula.display =
      .ok "x * x / y + 0.1 * y - y" := by decide +kernel
  have hvalue : (Policy.standard.evaluate unordered numberBindings).isOk = true := by
    decide +kernel
  cases hvalidate : (Policy.standard.withFunctions []).validate unordered with
  | error e => simp [hvalidate, Except.map] at hdisplay
  | ok f =>
      simp only [hvalidate, Except.map, Except.ok.injEq] at hdisplay
      obtain ⟨v, hv⟩ := exists_eq_ok hvalue
      exact ⟨f, rfl, hdisplay, v, hv, (evaluate_display hvalidate numberBindings v).mp hv⟩

end MetricFormula
