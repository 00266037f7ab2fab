/-
  Proofs/Nesting: the look over the text measures the depth of its phrase.

  The look counts parentheses character by character, before anything is known of the
  grammar.  Words and blanks hold none, so it counts those among the tokens
  (`excess?_eq_none_iff`), and in a sentence of the grammar the greatest count is the
  depth of its phrase (`IsExpression.fits_iff`).
-/
import MetricFormula.Nesting
import MetricFormula.Proofs.Grammar.Phrase

set_option autoImplicit false

namespace MetricFormula.Nesting

open MetricFormula.Grammar

/-! ## Parentheses among tokens -/

/-- No parenthesis among the tokens opens more than `limit` levels, where `depth`
parentheses are open already. -/
def Fits (limit : Nat) : (depth : Nat) → List Token → Prop
  | _, [] => True
  | depth, t :: ts =>
      if t = .symbol '(' then depth + 1 < limit ∧ Fits limit (depth + 1) ts
      else if t = .symbol ')' then Fits limit (depth - 1) ts
      else Fits limit depth ts

variable {limit depth : Nat} {ts : List Token}

@[simp] theorem fits_nil : Fits limit depth [] := trivial

@[simp] theorem fits_opening :
    Fits limit depth (.symbol '(' :: ts) ↔ depth + 1 < limit ∧ Fits limit (depth + 1) ts :=
  Iff.rfl

@[simp] theorem fits_closing :
    Fits limit depth (.symbol ')' :: ts) ↔ Fits limit (depth - 1) ts := Iff.rfl

theorem fits_cons {t : Token} (hopen : t ≠ .symbol '(') (hclose : t ≠ .symbol ')') :
    Fits limit depth (t :: ts) ↔ Fits limit depth ts := by
  rw [Fits, if_neg hopen, if_neg hclose]

/-! ## From characters to tokens -/

theorem not_parenthesis_of_isNameChar {c : Char} (h : Scan.isNameChar c = true) :
    c ≠ '(' ∧ c ≠ ')' := by
  constructor <;> rintro rfl <;> simp [Scan.isNameChar] at h

theorem not_parenthesis_of_isNumeralChar {c : Char} (h : Decimal.isNumeralChar c = true) :
    c ≠ '(' ∧ c ≠ ')' := by
  constructor <;> rintro rfl <;> simp [Decimal.isNumeralChar] at h

/-- Names and literals hold no parentheses. -/
theorem not_parenthesis_of_mem {t : Token} (ht : t.Valid) (hsymbol : ∀ c, t ≠ .symbol c) :
    ∀ c ∈ t.text, c ≠ '(' ∧ c ≠ ')' := by
  intro c hc
  cases t with
  | name cs =>
      obtain ⟨d, ds, rfl, hd, hds⟩ := ht
      apply not_parenthesis_of_isNameChar
      rcases List.mem_cons.mp hc with rfl | hc
      · simp [Scan.isNameChar, Char.isAlphanum, hd]
      · exact hds c hc
  | literal cs =>
      obtain ⟨n, hn, rfl⟩ := ht
      exact not_parenthesis_of_isNumeralChar (Decimal.Numeral.isNumeralChar_of_mem hn hc)
  | symbol d => exact absurd rfl (hsymbol d)

/-- Text without parentheses is passed over. -/
theorem excess?_append {cs rest : List Char} (h : ∀ c ∈ cs, c ≠ '(' ∧ c ≠ ')') (offset : Nat) :
    excess? limit depth offset (cs ++ rest) =
      excess? limit depth (offset + Text.byteLength cs) rest := by
  induction cs generalizing offset with
  | nil => rfl
  | cons c cs ih =>
      obtain ⟨hopen, hclose⟩ := h c List.mem_cons_self
      rw [List.cons_append, excess?, if_neg hopen, if_neg hclose,
        ih fun d hd => h d (List.mem_cons_of_mem c hd)]
      rw [Text.byteLength_cons, Nat.add_assoc]

/-- The look over a text counts the parentheses among its tokens. -/
theorem excess?_eq_none_iff {cs : List Char} (h : Cut cs ts) (offset : Nat) :
    excess? limit depth offset cs = none ↔ Fits limit depth ts := by
  induction h generalizing depth offset with
  | nil => simp [excess?]
  | @gap c cs ts hgap _ ih =>
      have hc : c ≠ '(' ∧ c ≠ ')' := by
        constructor <;> rintro rfl <;> simp [Scan.isGap] at hgap
      rw [excess?, if_neg hc.1, if_neg hc.2, ih]
  | @token cs rest t ts hm _ ih =>
      rw [← hm.append]
      by_cases hsymbol : ∃ c, t = .symbol c
      · obtain ⟨c, rfl⟩ := hsymbol
        rw [Token.text, List.cons_append, List.nil_append, excess?]
        by_cases hopen : c = '('
        · subst hopen
          rw [if_pos rfl, fits_opening]
          by_cases hlimit : limit ≤ depth + 1
          · simp [hlimit, Nat.not_lt.mpr hlimit]
          · rw [if_neg hlimit, ih, iff_and_self]
            intro _
            exact Nat.lt_of_not_le hlimit
        · rw [if_neg hopen]
          by_cases hclose : c = ')'
          · subst hclose
            rw [if_pos rfl, fits_closing, ih]
          · rw [if_neg hclose, fits_cons (by simpa using hopen) (by simpa using hclose), ih]
      · have hplain : ∀ c, t ≠ .symbol c := fun c hc => hsymbol ⟨c, hc⟩
        rw [excess?_append (not_parenthesis_of_mem hm.valid hplain),
          fits_cons (hplain '(') (hplain ')'), ih]

/-! ## From tokens to phrases -/

/-- A phrase of some depth has room inside `depth` open parentheses. -/
def Within (limit depth height : Nat) : Prop := height = 0 ∨ depth + height < limit

theorem within_max {a b : Nat} :
    Within limit depth (max a b) ↔ Within limit depth a ∧ Within limit depth b := by
  unfold Within
  omega

theorem within_succ {a : Nat} :
    Within limit depth (a + 1) ↔ depth + 1 < limit ∧ Within limit (depth + 1) a := by
  unfold Within
  omega

@[simp] theorem within_zero : Within limit depth 0 := Or.inl rfl

theorem fits_additive {operator : AdditiveOperator} :
    Fits limit depth (.symbol operator.symbol :: ts) ↔ Fits limit depth ts := by
  cases operator <;> exact fits_cons (by decide) (by decide)

theorem fits_multiplicative {operator : MultiplicativeOperator} :
    Fits limit depth (.symbol operator.symbol :: ts) ↔ Fits limit depth ts := by
  cases operator <;> exact fits_cons (by decide) (by decide)

end MetricFormula.Nesting

namespace MetricFormula.Grammar

open Nesting

mutual

/-- The tokens of an expression fit if there is room for its depth. -/
theorem IsExpression.fits_iff : ∀ {e : ExpressionPhrase} {ts us : List Token},
    IsExpression ts e us → ∀ {limit depth : Nat},
    Fits limit depth ts ↔ Within limit depth e.depth ∧ Fits limit depth us
  | .mk first steps, _, _, .mk hfirst hsteps, limit, depth => by
      rw [hfirst.fits_iff, hsteps.fits_iff, ExpressionPhrase.depth, within_max, and_assoc]

theorem AreExpressionSteps.fits_iff : ∀ {steps : List ExpressionPhraseStep} {ts us : List Token},
    AreExpressionSteps ts steps us → ∀ {limit depth : Nat},
    Fits limit depth ts ↔ Within limit depth (ExpressionPhrase.stepsDepth steps) ∧
      Fits limit depth us
  | [], _, _, .nil, limit, depth => by
      rw [ExpressionPhrase.stepsDepth, and_iff_right within_zero]
  | .mk operator term :: steps, _, _, .cons hterm hsteps, limit, depth => by
      rw [fits_additive, hterm.fits_iff, hsteps.fits_iff, ExpressionPhrase.stepsDepth, within_max,
        and_assoc]

theorem IsTerm.fits_iff : ∀ {t : TermPhrase} {ts us : List Token}, IsTerm ts t us →
    ∀ {limit depth : Nat}, Fits limit depth ts ↔ Within limit depth t.depth ∧ Fits limit depth us
  | .mk first steps, _, _, .mk hfirst hsteps, limit, depth => by
      rw [hfirst.fits_iff, hsteps.fits_iff, TermPhrase.depth, within_max, and_assoc]

theorem AreTermSteps.fits_iff : ∀ {steps : List TermPhraseStep} {ts us : List Token},
    AreTermSteps ts steps us → ∀ {limit depth : Nat},
    Fits limit depth ts ↔ Within limit depth (TermPhrase.stepsDepth steps) ∧ Fits limit depth us
  | [], _, _, .nil, limit, depth => by
      rw [TermPhrase.stepsDepth, and_iff_right within_zero]
  | .mk operator factor :: steps, _, _, .cons hfactor hsteps, limit, depth => by
      rw [fits_multiplicative, hfactor.fits_iff, hsteps.fits_iff, TermPhrase.stepsDepth, within_max,
        and_assoc]

theorem IsFactor.fits_iff : ∀ {x : FactorPhrase} {ts us : List Token}, IsFactor ts x us →
    ∀ {limit depth : Nat}, Fits limit depth ts ↔ Within limit depth x.depth ∧ Fits limit depth us
  | .reference name, _, _, .reference _, limit, depth => by
      rw [fits_cons (by simp) (by simp), FactorPhrase.depth, and_iff_right within_zero]
  | .constant literal, _, _, .constant, limit, depth => by
      rw [fits_cons (by simp) (by simp), FactorPhrase.depth, and_iff_right within_zero]
  | .group inner, _, _, .group hinner, limit, depth => by
      rw [fits_opening, hinner.fits_iff, fits_closing, FactorPhrase.depth, within_succ, and_assoc,
        Nat.add_sub_cancel]
  | .call name first others, _, _, .call hfirst hothers, limit, depth => by
      rw [fits_cons (by simp) (by simp), fits_opening, hfirst.fits_iff, hothers.fits_iff,
        fits_closing, FactorPhrase.depth, within_succ, within_max, Nat.add_sub_cancel, and_assoc,
        and_assoc]

theorem AreArguments.fits_iff : ∀ {es : List ExpressionPhrase} {ts us : List Token},
    AreArguments ts es us → ∀ {limit depth : Nat},
    Fits limit depth ts ↔ Within limit depth (ExpressionPhrase.depths es) ∧ Fits limit depth us
  | [], _, _, .nil, limit, depth => by
      rw [ExpressionPhrase.depths, and_iff_right within_zero]
  | e :: es, _, _, .cons he hes, limit, depth => by
      rw [fits_cons (by decide) (by decide), he.fits_iff, hes.fits_iff, ExpressionPhrase.depths,
        within_max, and_assoc]

end

end MetricFormula.Grammar

namespace MetricFormula.Nesting

open MetricFormula.Grammar

/-- A sentence passes if it has no parentheses, or if they nest fewer levels than the
limit. -/
theorem check_eq_ok_iff {limit : Nat} {source : String} {ts : List Token} {e : ExpressionPhrase}
    (hcut : Cut source.toList ts) (he : IsExpression ts e []) :
    check limit source = .ok () ↔ e.depth = 0 ∨ e.depth < limit := by
  have hfits : excess? limit 0 0 source.toList = none ↔ _ :=
    (excess?_eq_none_iff hcut 0).trans he.fits_iff
  rw [and_iff_left fits_nil, Within, Nat.zero_add] at hfits
  rw [← hfits]
  unfold check
  cases excess? limit 0 0 source.toList with
  | none => simp
  | some position => simp

end MetricFormula.Nesting
