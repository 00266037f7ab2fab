/-
  Proofs/Grammar/Progress: reading a formula token by token.

  Part of the way through a formula, all that matters for what may follow is whether an
  operand is due or has just been read, and which parentheses are open: `Progress`.
  `Advances s t s'` says that the token `t` may come at `s` and leads to `s'`, and
  `Accepts s ts` that the tokens `ts` finish the formula from `s` on.

  From the start, the sentences of the grammar are accepted and nothing else is
  (`accepts_iff_sentence`), and what has been read up to an operand is finished by the
  parentheses that close those that are open (`accepts_closings`).
-/
import MetricFormula.Proofs.Grammar.Phrase

set_option autoImplicit false

namespace MetricFormula.Grammar

/-! ## Progress -/

/-- What an open parenthesis belongs to. -/
inductive Opening where
  | group
  | call
  deriving DecidableEq

/-- How far a formula has been read: an operand is due, or one has just been read, which a
parenthesis turns into a call if it is `callable`.  The parentheses that are open are given
from the inside out. -/
inductive Progress where
  | operand (opened : List Opening)
  | complete (callable : Bool) (opened : List Opening)
  deriving DecidableEq

/-- The operators between factors and between terms. -/
def operators : List Char := ['*', '/', '+', '-']

/-- A token may come next and leads to further progress. -/
inductive Advances : Progress → Token → Progress → Prop
  | name {opened : List Opening} {x : List Char} :
      Advances (.operand opened) (.name x) (.complete true opened)
  | literal {opened : List Opening} {x : List Char} :
      Advances (.operand opened) (.literal x) (.complete false opened)
  | group {opened : List Opening} :
      Advances (.operand opened) (.symbol '(') (.operand (.group :: opened))
  | call {opened : List Opening} :
      Advances (.complete true opened) (.symbol '(') (.operand (.call :: opened))
  | comma {callable : Bool} {opened : List Opening} :
      Advances (.complete callable (.call :: opened)) (.symbol ',') (.operand (.call :: opened))
  | close {callable : Bool} {o : Opening} {opened : List Opening} :
      Advances (.complete callable (o :: opened)) (.symbol ')') (.complete false opened)
  | operator {callable : Bool} {opened : List Opening} {d : Char} :
      d ∈ operators → Advances (.complete callable opened) (.symbol d) (.operand opened)

/-- Some tokens lead from a progress to the end of the formula. -/
inductive Accepts : Progress → List Token → Prop
  | nil {callable : Bool} : Accepts (.complete callable []) []
  | cons {s s' : Progress} {t : Token} {ts : List Token} :
      Advances s t s' → Accepts s' ts → Accepts s (t :: ts)

variable {s s' : Progress} {t : Token} {ts us : List Token} {opened : List Opening}

theorem mem_operators_additive (operator : AdditiveOperator) : operator.symbol ∈ operators := by
  cases operator <;> decide

theorem mem_operators_multiplicative (operator : MultiplicativeOperator) :
    operator.symbol ∈ operators := by
  cases operator <;> decide

/-- A token leads to one progress only. -/
theorem Advances.unique {s₁ s₂ : Progress} (h₁ : Advances s t s₁) (h₂ : Advances s t s₂) :
    s₁ = s₂ := by
  cases h₁ <;> cases h₂ <;> first | rfl | (exfalso; revert ‹_ ∈ operators›; decide)

theorem Advances.accepts_iff (h : Advances s t s') : Accepts s (t :: ts) ↔ Accepts s' ts := by
  constructor
  · intro hts
    cases hts with
    | cons h' hts => rwa [h.unique h']
  · exact .cons h

/-! ## Sentences are accepted -/

/-- Unless a parenthesis follows, it does not matter whether an operand could be called. -/
theorem accepts_complete_congr (h : ts.head? ≠ some (.symbol '(')) (b b' : Bool) :
    Accepts (.complete b opened) ts ↔ Accepts (.complete b' opened) ts := by
  suffices himp : ∀ b b', Accepts (.complete b opened) ts → Accepts (.complete b' opened) ts from
    ⟨himp b b', himp b' b⟩
  intro b b' hts
  cases hts with
  | nil => exact .nil
  | cons hadvance hts =>
      cases hadvance with
      | call => exact absurd rfl h
      | comma => exact .cons .comma hts
      | close => exact .cons .close hts
      | operator hd => exact .cons (.operator hd) hts

mutual

/-- Reading an expression where an operand is due leaves what can follow an operand. -/
theorem IsExpression.accepts_iff : ∀ {e : ExpressionPhrase} {ts us : List Token},
    IsExpression ts e us → ∀ {opened : List Opening},
    Accepts (.operand opened) ts ↔ Accepts (.complete false opened) us
  | .mk _ _, _, _, .mk hfirst hsteps, _ => hfirst.accepts_iff.trans hsteps.accepts_iff

theorem AreExpressionSteps.accepts_iff : ∀ {steps : List ExpressionPhraseStep}
    {ts us : List Token}, AreExpressionSteps ts steps us → ∀ {opened : List Opening},
    Accepts (.complete false opened) ts ↔ Accepts (.complete false opened) us
  | [], _, _, .nil, _ => Iff.rfl
  | .mk operator _ :: _, _, _, .cons hterm hsteps, _ =>
      (Advances.operator (mem_operators_additive operator)).accepts_iff.trans
        (hterm.accepts_iff.trans hsteps.accepts_iff)

theorem IsTerm.accepts_iff : ∀ {t : TermPhrase} {ts us : List Token}, IsTerm ts t us →
    ∀ {opened : List Opening},
    Accepts (.operand opened) ts ↔ Accepts (.complete false opened) us
  | .mk _ _, _, _, .mk hfirst hsteps, _ => hfirst.accepts_iff.trans hsteps.accepts_iff

theorem AreTermSteps.accepts_iff : ∀ {steps : List TermPhraseStep} {ts us : List Token},
    AreTermSteps ts steps us → ∀ {opened : List Opening},
    Accepts (.complete false opened) ts ↔ Accepts (.complete false opened) us
  | [], _, _, .nil, _ => Iff.rfl
  | .mk operator _ :: _, _, _, .cons hfactor hsteps, _ =>
      (Advances.operator (mem_operators_multiplicative operator)).accepts_iff.trans
        (hfactor.accepts_iff.trans hsteps.accepts_iff)

theorem IsFactor.accepts_iff : ∀ {x : FactorPhrase} {ts us : List Token}, IsFactor ts x us →
    ∀ {opened : List Opening},
    Accepts (.operand opened) ts ↔ Accepts (.complete false opened) us
  | .call _ _ _, _, _, .call hfirst hothers, _ => by
      rw [Advances.name.accepts_iff, Advances.call.accepts_iff, hfirst.accepts_iff,
        hothers.accepts_iff, Advances.close.accepts_iff]
  | .reference _, _, _, .reference hhead, _ =>
      Advances.name.accepts_iff.trans (accepts_complete_congr hhead true false)
  | .constant _, _, _, .constant, _ => Advances.literal.accepts_iff
  | .group _, _, _, .group hinner, _ => by
      rw [Advances.group.accepts_iff, hinner.accepts_iff, Advances.close.accepts_iff]

theorem AreArguments.accepts_iff : ∀ {es : List ExpressionPhrase} {ts us : List Token},
    AreArguments ts es us → ∀ {opened : List Opening},
    Accepts (.complete false (.call :: opened)) ts ↔
      Accepts (.complete false (.call :: opened)) us
  | [], _, _, .nil, _ => Iff.rfl
  | _ :: _, _, _, .cons he hes, _ =>
      Advances.comma.accepts_iff.trans (he.accepts_iff.trans hes.accepts_iff)

end

/-! ## What is accepted is a sentence

What is accepted part of the way through a formula is the rest of a sentence: steps that go
on where an operand has been read, then what closes the parentheses one by one. -/

/-- Steps of a term, then steps of an expression, then what `P` asks for. -/
def GoesOn (P : List Token → Prop) (ts : List Token) : Prop :=
  ∃ xs us ss vs, AreTermSteps ts xs us ∧ AreExpressionSteps us ss vs ∧ P vs

/-- What follows an expression inside some parentheses. -/
def Closes : List Opening → List Token → Prop
  | [], ts => ts = []
  | .group :: opened, ts => ∃ us, ts = .symbol ')' :: us ∧ GoesOn (Closes opened) us
  | .call :: opened, ts =>
      ∃ es us, AreArguments ts es (.symbol ')' :: us) ∧ GoesOn (Closes opened) us

/-- What remains of a sentence at a progress. -/
def Remains : Progress → List Token → Prop
  | .operand opened, ts => ∃ e us, IsExpression ts e us ∧ Closes opened us
  | .complete false opened, ts => GoesOn (Closes opened) ts
  | .complete true opened, ts =>
      (ts.head? ≠ some (.symbol '(') ∧ GoesOn (Closes opened) ts) ∨
        ∃ us e vs es ws, ts = .symbol '(' :: us ∧ IsExpression us e vs ∧
          AreArguments vs es (.symbol ')' :: ws) ∧ GoesOn (Closes opened) ws

section Remains

variable {P : List Token → Prop}

theorem GoesOn.of_end (h : P ts) : GoesOn P ts := ⟨[], ts, [], ts, .nil, .nil, h⟩

/-- A factor and what goes on after it make an expression. -/
theorem GoesOn.expression {x : FactorPhrase} (hx : IsFactor ts x us) (h : GoesOn P us) :
    ∃ e vs, IsExpression ts e vs ∧ P vs := by
  obtain ⟨xs, vs, ss, ws, hxs, hss, hws⟩ := h
  exact ⟨_, ws, .mk (.mk hx hxs) hss, hws⟩

/-- Where an expression follows, an operator may come before it. -/
theorem GoesOn.of_operator {d : Char} (hd : d ∈ operators) {e : ExpressionPhrase}
    (he : IsExpression ts e us) (h : P us) : GoesOn P (.symbol d :: ts) := by
  cases he with
  | mk hterm hsteps =>
      simp only [operators, List.mem_cons, List.not_mem_nil, or_false] at hd
      rcases hd with rfl | rfl | rfl | rfl
      · cases hterm with
        | mk hfactor hsteps' =>
            exact ⟨_, _, _, us, @AreTermSteps.cons _ _ _ .times _ _ hfactor hsteps', hsteps, h⟩
      · cases hterm with
        | mk hfactor hsteps' =>
            exact ⟨_, _, _, us, @AreTermSteps.cons _ _ _ .dividedBy _ _ hfactor hsteps', hsteps, h⟩
      · exact ⟨[], _, _, us, .nil, @AreExpressionSteps.cons _ _ _ .plus _ _ hterm hsteps, h⟩
      · exact ⟨[], _, _, us, .nil, @AreExpressionSteps.cons _ _ _ .minus _ _ hterm hsteps, h⟩

theorem Closes.of_closing {o : Opening} (h : GoesOn (Closes opened) ts) :
    Closes (o :: opened) (.symbol ')' :: ts) := by
  cases o with
  | group => exact ⟨ts, rfl, h⟩
  | call => exact ⟨[], ts, .nil, h⟩

theorem Closes.of_comma {e : ExpressionPhrase} (he : IsExpression ts e us)
    (h : Closes (.call :: opened) us) : Closes (.call :: opened) (.symbol ',' :: ts) := by
  obtain ⟨es, vs, hes, hvs⟩ := h
  exact ⟨e :: es, vs, .cons he hes, hvs⟩

/-- What goes on after an operand, called or not. -/
theorem Remains.of_goesOn {b : Bool} (hhead : ts.head? ≠ some (.symbol '('))
    (h : GoesOn (Closes opened) ts) : Remains (.complete b opened) ts := by
  cases b with
  | false => exact h
  | true => exact Or.inl ⟨hhead, h⟩

theorem Accepts.remains (h : Accepts s ts) : Remains s ts := by
  induction h with
  | nil => exact .of_goesOn (by simp) (.of_end rfl)
  | cons hadvance _ ih =>
      cases hadvance with
      | name =>
          rcases ih with ⟨hhead, hgoes⟩ | ⟨us, e, vs, es, ws, rfl, he, hes, hgoes⟩
          · exact hgoes.expression (.reference hhead)
          · exact hgoes.expression (.call he hes)
      | literal => exact GoesOn.expression .constant ih
      | group =>
          obtain ⟨e, us, he, vs, rfl, hgoes⟩ := ih
          exact hgoes.expression (.group he)
      | call =>
          obtain ⟨e, us, he, es, vs, hes, hgoes⟩ := ih
          exact Or.inr ⟨_, e, us, es, vs, rfl, he, hes, hgoes⟩
      | comma =>
          obtain ⟨e, us, he, hcloses⟩ := ih
          exact .of_goesOn (by simp) (.of_end (.of_comma he hcloses))
      | close => exact .of_goesOn (by simp) (.of_end (.of_closing ih))
      | operator hd =>
          obtain ⟨e, us, he, hcloses⟩ := ih
          have hne : ∀ c ∈ operators, c ≠ '(' := by simp [operators]
          exact .of_goesOn (by simpa using hne _ hd) (.of_operator hd he hcloses)

end Remains

/-- From the start, exactly the sentences of the grammar are accepted. -/
theorem accepts_iff_sentence :
    Accepts (.operand []) ts ↔ ∃ e, IsExpression ts e [] := by
  constructor
  · intro h
    obtain ⟨e, us, he, rfl⟩ := h.remains
    exact ⟨e, he⟩
  · rintro ⟨e, he⟩
    exact he.accepts_iff.mpr .nil

/-! ## Closing what is open -/

/-- The parentheses that close those that are open. -/
def closings (opened : List Opening) : List Token := opened.map fun _ => .symbol ')'

theorem accepts_closings (b : Bool) (opened : List Opening) :
    Accepts (.complete b opened) (closings opened) := by
  induction opened generalizing b with
  | nil => exact .nil
  | cons o opened ih => exact .cons .close (ih false)

end MetricFormula.Grammar
