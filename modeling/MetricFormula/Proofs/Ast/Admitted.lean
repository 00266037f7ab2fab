/-
  Proofs/Ast/Admitted: what validation admits can be written down.

  The tokens of a text are valid, so the names of a derivation are names and its literals
  stand for numbers without a sign.  If validation admits the derivation as well, its
  sum is well-formed (`IsExpression.wellFormed_sum`), which is the converse of
  `Sum.WellFormed.admits`.
-/
import MetricFormula.Proofs.Ast.WellFormed

set_option autoImplicit false

namespace MetricFormula

open MetricFormula.Grammar
open MetricFormula.Validation (Admits admits_append admits_call)

/-! ## Words -/

/-- A ratio that is rounded to a finite number keeps its sign. -/
theorem Binary64.ofRatio_of_isFinite {negative : Bool} {num den : Nat}
    (h : (ofRatio negative num den).isFinite = true) :
    ∃ m, ofRatio negative num den = .finite negative m := by
  unfold ofRatio at h ⊢
  cases hratio : Magnitude.ofRatio? num den with
  | some m => exact ⟨m, rfl⟩
  | none => simp [hratio, isFinite] at h

theorem Decimal.toBinary64_of_isFinite {negative : Bool} {d : Decimal}
    (h : (d.toBinary64 negative).isFinite = true) :
    ∃ m, d.toBinary64 negative = .finite negative m := by
  unfold toBinary64 at h ⊢
  by_cases hexponent : 0 ≤ d.exponent
  · rw [if_pos hexponent] at h ⊢
    exact Binary64.ofRatio_of_isFinite h
  · rw [if_neg hexponent] at h ⊢
    exact Binary64.ofRatio_of_isFinite h

namespace Grammar

/-- A text is cut into valid tokens. -/
theorem Cut.valid {cs : List Char} {ts : List Token} (h : Cut cs ts) : ∀ t ∈ ts, t.Valid := by
  induction h with
  | nil => simp
  | gap _ _ ih => exact ih
  | token hmunches _ ih => exact List.forall_mem_cons.mpr ⟨hmunches.valid, ih⟩

/-- A literal has no sign, so that its number has none. -/
theorem exists_literalNumber_eq {literal : List Char} (h : IsNumeral literal)
    (hfinite : (literalNumber literal).isFinite = true) :
    ∃ m, literalNumber literal = .finite false m := by
  obtain ⟨n, hn, rfl⟩ := h
  rw [literalNumber_text hn] at hfinite ⊢
  exact Decimal.toBinary64_of_isFinite hfinite

/-! ## Phrases -/

section Phrases

variable {functions : NameSet}

mutual

/-- A sentence of valid tokens that validation admits has a well-formed sum. -/
theorem IsExpression.wellFormed_sum : ∀ {e : ExpressionPhrase} {ts us : List Token},
    IsExpression ts e us → (∀ t ∈ ts, t.Valid) → Admits functions e.literals e.calls →
    e.sum.WellFormed functions
  | .mk first steps, _, _, .mk hfirst hsteps, hvalid, hadmits => by
      obtain ⟨hadmits, hadmits'⟩ := admits_append.mp hadmits
      obtain ⟨read, rfl, -⟩ := hfirst.append
      obtain ⟨hadded, hsubtracted⟩ :=
        hsteps.wellFormed_sums (List.forall_mem_append.mp hvalid).2 hadmits'
      exact .mk (by simp)
        (List.forall_mem_cons.mpr ⟨hfirst.wellFormed_product hvalid hadmits, hadded⟩) hsubtracted

theorem AreExpressionSteps.wellFormed_sums :
    ∀ {steps : List ExpressionPhraseStep} {ts us : List Token},
      AreExpressionSteps ts steps us → (∀ t ∈ ts, t.Valid) →
      Admits functions (ExpressionPhrase.stepLiterals steps) (ExpressionPhrase.stepCalls steps) →
      (∀ p ∈ ExpressionPhrase.added steps, p.WellFormed functions) ∧
        ∀ p ∈ ExpressionPhrase.subtracted steps, p.WellFormed functions
  | [], _, _, _, _, _ => ⟨List.forall_mem_nil _, List.forall_mem_nil _⟩
  | .mk operator term :: steps, _, _, .cons hterm hsteps, hvalid, hadmits => by
      obtain ⟨hadmits, hadmits'⟩ := admits_append.mp hadmits
      have hvalid := (List.forall_mem_cons.mp hvalid).2
      have hproduct := hterm.wellFormed_product hvalid hadmits
      obtain ⟨read, rfl, -⟩ := hterm.append
      obtain ⟨hadded, hsubtracted⟩ :=
        hsteps.wellFormed_sums (List.forall_mem_append.mp hvalid).2 hadmits'
      cases operator with
      | plus => exact ⟨List.forall_mem_cons.mpr ⟨hproduct, hadded⟩, hsubtracted⟩
      | minus => exact ⟨hadded, List.forall_mem_cons.mpr ⟨hproduct, hsubtracted⟩⟩

theorem IsTerm.wellFormed_product : ∀ {t : TermPhrase} {ts us : List Token},
    IsTerm ts t us → (∀ u ∈ ts, u.Valid) → Admits functions t.literals t.calls →
    t.product.WellFormed functions
  | .mk first steps, _, _, .mk hfirst hsteps, hvalid, hadmits => by
      obtain ⟨hadmits, hadmits'⟩ := admits_append.mp hadmits
      obtain ⟨read, rfl, -⟩ := hfirst.append
      obtain ⟨hmultiplied, hdivided⟩ :=
        hsteps.wellFormed_factors (List.forall_mem_append.mp hvalid).2 hadmits'
      exact .mk (by simp)
        (List.forall_mem_cons.mpr ⟨hfirst.wellFormed_factor hvalid hadmits, hmultiplied⟩) hdivided

theorem AreTermSteps.wellFormed_factors : ∀ {steps : List TermPhraseStep} {ts us : List Token},
    AreTermSteps ts steps us → (∀ t ∈ ts, t.Valid) →
    Admits functions (TermPhrase.stepLiterals steps) (TermPhrase.stepCalls steps) →
    (∀ x ∈ TermPhrase.multiplied steps, x.WellFormed functions) ∧
      ∀ x ∈ TermPhrase.divided steps, x.WellFormed functions
  | [], _, _, _, _, _ => ⟨List.forall_mem_nil _, List.forall_mem_nil _⟩
  | .mk operator factor :: steps, _, _, .cons hfactor hsteps, hvalid, hadmits => by
      obtain ⟨hadmits, hadmits'⟩ := admits_append.mp hadmits
      have hvalid := (List.forall_mem_cons.mp hvalid).2
      have hwellFormed := hfactor.wellFormed_factor hvalid hadmits
      obtain ⟨read, rfl, -⟩ := hfactor.append
      obtain ⟨hmultiplied, hdivided⟩ :=
        hsteps.wellFormed_factors (List.forall_mem_append.mp hvalid).2 hadmits'
      cases operator with
      | times => exact ⟨List.forall_mem_cons.mpr ⟨hwellFormed, hmultiplied⟩, hdivided⟩
      | dividedBy => exact ⟨hmultiplied, List.forall_mem_cons.mpr ⟨hwellFormed, hdivided⟩⟩

theorem IsFactor.wellFormed_factor : ∀ {x : FactorPhrase} {ts us : List Token},
    IsFactor ts x us → (∀ t ∈ ts, t.Valid) → Admits functions x.literals x.calls →
    x.factor.WellFormed functions
  | .call name first others, _, _, .call hfirst hothers, hvalid, hadmits => by
      obtain ⟨hname, hvalid⟩ := List.forall_mem_cons.mp hvalid
      have hvalid := (List.forall_mem_cons.mp hvalid).2
      obtain ⟨hadmits, hallowed⟩ := admits_call.mp hadmits
      obtain ⟨hadmits, hadmits'⟩ := admits_append.mp hadmits
      have hsum := hfirst.wellFormed_sum hvalid hadmits
      obtain ⟨read, rfl, -⟩ := hfirst.append
      have hsums := hothers.wellFormed_sums (List.forall_mem_append.mp hvalid).2 hadmits'
      refine .call ?_ hallowed (by simp) (List.forall_mem_cons.mpr ⟨hsum, hsums⟩)
      rwa [String.toList_ofList]
  | .reference name, _, _, .reference _, hvalid, _ => by
      refine .variable ?_
      rw [String.toList_ofList]
      exact (List.forall_mem_cons.mp hvalid).1
  | .constant literal, _, _, .constant, hvalid, hadmits => by
      obtain ⟨m, hm⟩ := exists_literalNumber_eq (List.forall_mem_cons.mp hvalid).1
        (hadmits.1 literal (List.mem_singleton_self literal))
      rw [FactorPhrase.factor, hm]
      exact .constant m
  | .group inner, _, _, .group hinner, hvalid, hadmits =>
      .group (hinner.wellFormed_sum (List.forall_mem_cons.mp hvalid).2 hadmits)

theorem AreArguments.wellFormed_sums : ∀ {es : List ExpressionPhrase} {ts us : List Token},
    AreArguments ts es us → (∀ t ∈ ts, t.Valid) →
    Admits functions (ExpressionPhrase.argumentLiterals es) (ExpressionPhrase.argumentCalls es) →
    ∀ s ∈ ExpressionPhrase.sums es, s.WellFormed functions
  | [], _, _, _, _, _ => List.forall_mem_nil _
  | e :: es, _, _, .cons he hes, hvalid, hadmits => by
      obtain ⟨hadmits, hadmits'⟩ := admits_append.mp hadmits
      have hvalid := (List.forall_mem_cons.mp hvalid).2
      have hsum := he.wellFormed_sum hvalid hadmits
      obtain ⟨read, rfl, -⟩ := he.append
      exact List.forall_mem_cons.mpr
        ⟨hsum, hes.wellFormed_sums (List.forall_mem_append.mp hvalid).2 hadmits'⟩

end

end Phrases

end Grammar

end MetricFormula
