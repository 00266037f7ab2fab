/-
  Proofs/Grammar/Reading: what the matchers read, from place to place.

  `ExpressionAt c t c'` says that the text from the place `c` up to the place `c'` reads as
  the parse tree `t`; likewise for the other kinds of trees.  Where a part may be repeated,
  the blanks are read even if there is no such part, and given back after the last one
  (`Cursor.beyond`).

  What a matcher reads is read so (`expressionOver_at`), hence every part of a parse tree
  has its places in the text (`tree_at`).
-/
import MetricFormula.Proofs.Grammar.Place

set_option autoImplicit false

namespace MetricFormula.Grammar

open Matcher

/-! ## Readings -/

/-- One token from a place on. -/
def TokenAt (c : Cursor) (t : Token) (c' : Cursor) : Prop :=
  ∃ rest, Munches c.rest t rest ∧ c' = c.past t.text rest

/-- The place after parts that end at `c`: if there is none, it is that after the blanks. -/
def Cursor.beyond {α : Type} (c : Cursor) : List α → Cursor
  | [] => c.afterGap
  | _ :: _ => c

mutual

/-- A term, then any number of steps. -/
inductive ExpressionAt : Cursor → ExpressionTree → Cursor → Prop
  | mk {c d e : Cursor} {first : TermTree} {steps : List ExpressionStep} :
      TermAt c first d → ExpressionStepsAt d steps e →
      ExpressionAt c (.mk ⟨c.offset, (e.beyond steps).offset⟩ first steps) (e.beyond steps)

/-- Any number of steps: `+` or `-` and a term. -/
inductive ExpressionStepsAt : Cursor → List ExpressionStep → Cursor → Prop
  | nil {c : Cursor} : ExpressionStepsAt c [] c
  | cons {c c' d e : Cursor} {operator : AdditiveOperator} {term : TermTree}
      {steps : List ExpressionStep} :
      TokenAt c.afterGap (.symbol operator.symbol) d → TermAt d.afterGap term e →
      ExpressionStepsAt e steps c' →
      ExpressionStepsAt c (.mk operator c.afterGap.offset term :: steps) c'

/-- A factor, then any number of steps. -/
inductive TermAt : Cursor → TermTree → Cursor → Prop
  | mk {c d e : Cursor} {first : FactorTree} {steps : List TermStep} :
      FactorAt c first d → TermStepsAt d steps e →
      TermAt c (.mk ⟨c.offset, (e.beyond steps).offset⟩ first steps) (e.beyond steps)

/-- Any number of steps: `*` or `/` and a factor. -/
inductive TermStepsAt : Cursor → List TermStep → Cursor → Prop
  | nil {c : Cursor} : TermStepsAt c [] c
  | cons {c c' d e : Cursor} {operator : MultiplicativeOperator} {factor : FactorTree}
      {steps : List TermStep} :
      TokenAt c.afterGap (.symbol operator.symbol) d → FactorAt d.afterGap factor e →
      TermStepsAt e steps c' →
      TermStepsAt c (.mk operator c.afterGap.offset factor :: steps) c'

/-- The four kinds of factors. -/
inductive FactorAt : Cursor → FactorTree → Cursor → Prop
  | call {c c' d e g k : Cursor} {name : Lexeme} {first : ExpressionTree}
      {others : List ExpressionTree} :
      TokenAt c (.name name.text.toList) d → name.span = ⟨c.offset, d.offset⟩ →
      TokenAt d.afterGap (.symbol '(') e → ExpressionAt e.afterGap first g →
      ArgumentsAt g others k → TokenAt k.afterGap (.symbol ')') c' →
      FactorAt c (.call ⟨c.offset, c'.offset⟩ name first others) c'
  | reference {c d : Cursor} {name : Lexeme} :
      TokenAt c (.name name.text.toList) d → name.span = ⟨c.offset, d.offset⟩ →
      FactorAt c (.reference ⟨c.offset, d.afterGap.offset⟩ name) d.afterGap
  | constant {c c' : Cursor} {literal : Lexeme} :
      TokenAt c (.literal literal.text.toList) c' → literal.span = ⟨c.offset, c'.offset⟩ →
      FactorAt c (.constant literal) c'
  | group {c c' d e : Cursor} {inner : ExpressionTree} :
      TokenAt c (.symbol '(') d → ExpressionAt d.afterGap inner e →
      TokenAt e.afterGap (.symbol ')') c' → FactorAt c (.group inner) c'

/-- Any number of further arguments, a comma before each. -/
inductive ArgumentsAt : Cursor → List ExpressionTree → Cursor → Prop
  | nil {c : Cursor} : ArgumentsAt c [] c
  | cons {c c' d e : Cursor} {argument : ExpressionTree} {others : List ExpressionTree} :
      TokenAt c.afterGap (.symbol ',') d → ExpressionAt d.afterGap argument e →
      ArgumentsAt e others c' → ArgumentsAt c (argument :: others) c'

end

/-! ## Words -/

variable {c c' d : Cursor}

theorem tokenAt_of_char {u : Unit} {x : Char} (h : Gives (char x) c u c') (hx : x ∈ symbols) :
    TokenAt c (.symbol x) c' := by
  obtain ⟨rest, hrest, rfl⟩ := h.of_char
  exact ⟨rest, hrest ▸ munches_symbol hx rest, rfl⟩

theorem tokenAt_of_identifier {l : Lexeme} (h : Gives identifier c l c') :
    TokenAt c (.name l.text.toList) c' ∧ l.span = ⟨c.offset, c'.offset⟩ := by
  obtain ⟨rest, hsplit, rfl, hspan⟩ := h.of_named.of_lexeme
  exact ⟨⟨rest, identifier_iff_munches.mp hsplit, rfl⟩, hspan⟩

theorem tokenAt_of_constant {l : Lexeme} (h : Gives constant c l c') :
    TokenAt c (.literal l.text.toList) c' ∧ l.span = ⟨c.offset, c'.offset⟩ := by
  obtain ⟨rest, hsplit, rfl, hspan⟩ := h.of_named.of_lexeme
  exact ⟨⟨rest, constant_iff_munches.mp hsplit, rfl⟩, hspan⟩

/-- A symbol that is read with its place. -/
theorem tokenAt_of_placed {α : Type} {rule : Rule} {x y : α} {e : Char} {place : Nat}
    (h : Gives (named rule do
      let place ← offset
      char e
      pure (x, place)) c (y, place) c') (he : e ∈ symbols) :
    x = y ∧ TokenAt c (.symbol e) c' ∧ place = c.offset := by
  obtain ⟨n, c₁, hn, h⟩ := h.of_named.of_bind
  obtain ⟨u, c₂, hu, h⟩ := h.of_bind
  obtain ⟨heq, rfl⟩ := h.of_pure
  obtain ⟨rfl, rfl⟩ := Prod.mk.inj heq
  obtain ⟨rfl, rfl⟩ := hn.of_offset
  exact ⟨rfl, tokenAt_of_char hu he, rfl⟩

theorem tokenAt_of_additive {operator : AdditiveOperator} {place : Nat}
    (h : Gives (additiveSymbol .plus <|> additiveSymbol .minus) c (operator, place) c') :
    TokenAt c (.symbol operator.symbol) c' ∧ place = c.offset := by
  rcases h.of_orElse with h | h
  · obtain ⟨rfl, htoken⟩ := tokenAt_of_placed h (by decide)
    exact htoken
  · obtain ⟨rfl, htoken⟩ := tokenAt_of_placed h (by decide)
    exact htoken

theorem tokenAt_of_multiplicative {operator : MultiplicativeOperator} {place : Nat}
    (h : Gives (multiplicativeSymbol .times <|> multiplicativeSymbol .dividedBy) c
      (operator, place) c') :
    TokenAt c (.symbol operator.symbol) c' ∧ place = c.offset := by
  rcases h.of_orElse with h | h
  · obtain ⟨rfl, htoken⟩ := tokenAt_of_placed h (by decide)
    exact htoken
  · obtain ⟨rfl, htoken⟩ := tokenAt_of_placed h (by decide)
    exact htoken

/-! ## One level of nesting -/

/-- A matcher for expressions that reads nothing else. -/
def ReadsExpressions (p : Matcher ExpressionTree) : Prop :=
  ∀ {c : Cursor} {t : ExpressionTree} {c' : Cursor}, Gives p c t c' → ExpressionAt c t c'

theorem reference_at {x : FactorTree} (h : Gives reference c x c') : FactorAt c x c' := by
  obtain ⟨⟨span, name⟩, c₁, hname, h⟩ := h.of_named.of_bind
  obtain ⟨rfl, rfl⟩ := h.of_pure
  obtain ⟨hparts, rfl⟩ := hname.of_spanned
  obtain ⟨l, c₂, hl, h⟩ := hparts.of_bind
  obtain ⟨_, c₃, hgap, h⟩ := h.of_bind
  obtain ⟨_, c₄, hahead, h⟩ := h.of_bind
  obtain ⟨rfl, rfl⟩ := h.of_pure
  obtain ⟨rfl, _⟩ := hahead.of_notAhead
  obtain rfl := hgap.of_gap
  obtain ⟨htoken, hspan⟩ := tokenAt_of_identifier hl
  exact .reference htoken hspan

section Level

variable {inner : Matcher ExpressionTree} (hinner : ReadsExpressions inner)
include hinner

theorem groupedOver_at {x : FactorTree} (h : Gives (groupedOver inner) c x c') :
    FactorAt c x c' := by
  obtain ⟨_, c₁, hopen, h⟩ := h.of_bind
  obtain ⟨_, c₂, hgap, h⟩ := h.of_bind
  obtain ⟨e, c₃, he, h⟩ := h.of_bind
  obtain ⟨_, c₄, hgap', h⟩ := h.of_bind
  obtain ⟨_, c₅, hclose, h⟩ := h.of_bind
  obtain ⟨rfl, rfl⟩ := h.of_pure
  obtain rfl := hgap.of_gap
  obtain rfl := hgap'.of_gap
  exact .group (tokenAt_of_char hopen (by decide)) (hinner he)
    (tokenAt_of_char hclose (by decide))

theorem argumentsAt_of_chain {es : List ExpressionTree}
    (h : Chain (do gap; argumentOver inner) c es c') : ArgumentsAt c es c' := by
  induction h with
  | nil => exact .nil
  | cons he _ ih =>
      obtain ⟨_, c₁, hgap, h⟩ := he.of_bind
      obtain ⟨_, c₂, hcomma, h⟩ := h.of_bind
      obtain ⟨_, c₃, hgap', h⟩ := h.of_bind
      obtain rfl := hgap.of_gap
      obtain rfl := hgap'.of_gap
      exact .cons (tokenAt_of_char hcomma (by decide)) (hinner h) ih

/-- The arguments end at a place from which the blanks lead where they lead from the place
that is left. -/
theorem repeatedArguments_at {es : List ExpressionTree}
    (h : Gives (repeated (argumentOver inner)) c es c') :
    ∃ d, ArgumentsAt c es d ∧ d.afterGap = c'.afterGap := by
  rcases h.of_repeated with ⟨rfl, rfl⟩ | ⟨_, _, rfl, hchain⟩
  · exact ⟨c, .nil, c.afterGap_afterGap.symm⟩
  · exact ⟨c', argumentsAt_of_chain hinner hchain, rfl⟩

theorem callOver_at {x : FactorTree} (h : Gives (callOver inner) c x c') : FactorAt c x c' := by
  obtain ⟨⟨span, name, first, others⟩, c₁, hcall, h⟩ := h.of_named.of_bind
  obtain ⟨rfl, rfl⟩ := h.of_pure
  obtain ⟨hparts, rfl⟩ := hcall.of_spanned
  obtain ⟨l, c₂, hl, h⟩ := hparts.of_bind
  obtain ⟨_, c₃, hgap, h⟩ := h.of_bind
  obtain ⟨_, c₄, hopen, h⟩ := h.of_bind
  obtain ⟨_, c₅, hgap', h⟩ := h.of_bind
  obtain ⟨e, c₆, he, h⟩ := h.of_bind
  obtain ⟨es, c₇, hes, h⟩ := h.of_bind
  obtain ⟨_, c₈, hgap'', h⟩ := h.of_bind
  obtain ⟨_, c₉, hclose, h⟩ := h.of_bind
  obtain ⟨heq, rfl⟩ := h.of_pure
  simp only [Prod.mk.injEq] at heq
  obtain ⟨rfl, rfl, rfl⟩ := heq
  obtain rfl := hgap.of_gap
  obtain rfl := hgap'.of_gap
  obtain rfl := hgap''.of_gap
  obtain ⟨htoken, hspan⟩ := tokenAt_of_identifier hl
  obtain ⟨d, hothers, hd⟩ := repeatedArguments_at hinner hes
  rw [← hd] at hclose
  exact .call htoken hspan (tokenAt_of_char hopen (by decide)) (hinner he) hothers
    (tokenAt_of_char hclose (by decide))

theorem factorOver_at {x : FactorTree} (h : Gives (factorOver inner) c x c') :
    FactorAt c x c' := by
  rcases h.of_orElse with h | h
  · exact callOver_at hinner h
  rcases h.of_orElse with h | h
  · exact reference_at h
  rcases h.of_orElse with h | h
  · obtain ⟨l, c₁, hl, h⟩ := h.of_bind
    obtain ⟨rfl, rfl⟩ := h.of_pure
    obtain ⟨htoken, hspan⟩ := tokenAt_of_constant hl
    exact .constant htoken hspan
  · exact groupedOver_at hinner h

theorem termStepsAt_of_chain {steps : List TermStep}
    (h : Chain (do gap; termStepOver inner) c steps c') : TermStepsAt c steps c' := by
  induction h with
  | nil => exact .nil
  | cons hstep _ ih =>
      obtain ⟨_, c₁, hgap, h⟩ := hstep.of_bind
      obtain ⟨⟨operator, place⟩, c₂, hoperator, h⟩ := h.of_bind
      obtain ⟨_, c₃, hgap', h⟩ := h.of_bind
      obtain ⟨factor, c₄, hfactor, h⟩ := h.of_bind
      obtain ⟨rfl, rfl⟩ := h.of_pure
      obtain rfl := hgap.of_gap
      obtain rfl := hgap'.of_gap
      obtain ⟨htoken, rfl⟩ := tokenAt_of_multiplicative hoperator
      exact .cons htoken (factorOver_at hinner hfactor) ih

theorem termOver_at {t : TermTree} (h : Gives (termOver inner) c t c') : TermAt c t c' := by
  obtain ⟨⟨span, first, steps⟩, c₁, hterm, h⟩ := h.of_named.of_bind
  obtain ⟨rfl, rfl⟩ := h.of_pure
  obtain ⟨hparts, rfl⟩ := hterm.of_spanned
  obtain ⟨x, d, hx, h⟩ := hparts.of_bind
  obtain ⟨xs, c₃, hxs, h⟩ := h.of_bind
  obtain ⟨heq, rfl⟩ := h.of_pure
  obtain ⟨rfl, rfl⟩ := Prod.mk.inj heq
  have hfirst := factorOver_at hinner hx
  rcases hxs.of_repeated with ⟨rfl, rfl⟩ | ⟨_, _, rfl, hchain⟩
  · exact TermAt.mk hfirst .nil
  · exact TermAt.mk hfirst (termStepsAt_of_chain hinner hchain)

theorem expressionStepsAt_of_chain {steps : List ExpressionStep}
    (h : Chain (do gap; expressionStepOver inner) c steps c') : ExpressionStepsAt c steps c' := by
  induction h with
  | nil => exact .nil
  | cons hstep _ ih =>
      obtain ⟨_, c₁, hgap, h⟩ := hstep.of_bind
      obtain ⟨⟨operator, place⟩, c₂, hoperator, h⟩ := h.of_bind
      obtain ⟨_, c₃, hgap', h⟩ := h.of_bind
      obtain ⟨term, c₄, hterm, h⟩ := h.of_bind
      obtain ⟨rfl, rfl⟩ := h.of_pure
      obtain rfl := hgap.of_gap
      obtain rfl := hgap'.of_gap
      obtain ⟨htoken, rfl⟩ := tokenAt_of_additive hoperator
      exact .cons htoken (termOver_at hinner hterm) ih

/-- If the level below reads nothing but expressions, so does this level. -/
theorem expressionOver_at : ReadsExpressions (expressionOver inner) := by
  intro c t c' h
  obtain ⟨⟨span, first, steps⟩, c₁, hexpression, h⟩ := h.of_named.of_bind
  obtain ⟨rfl, rfl⟩ := h.of_pure
  obtain ⟨hparts, rfl⟩ := hexpression.of_spanned
  obtain ⟨x, d, hx, h⟩ := hparts.of_bind
  obtain ⟨xs, c₃, hxs, h⟩ := h.of_bind
  obtain ⟨heq, rfl⟩ := h.of_pure
  obtain ⟨rfl, rfl⟩ := Prod.mk.inj heq
  have hfirst := termOver_at hinner hx
  rcases hxs.of_repeated with ⟨rfl, rfl⟩ | ⟨_, _, rfl, hchain⟩
  · exact ExpressionAt.mk hfirst .nil
  · exact ExpressionAt.mk hfirst (expressionStepsAt_of_chain hinner hchain)

end Level

/-! ## All levels -/

/-- However many levels there are, nothing but expressions is read. -/
theorem expressionWithin_at (n : Nat) : ReadsExpressions (expressionWithin fail n) := by
  induction n with
  | zero => exact fun h => absurd h Gives.of_fail
  | succ n ih => exact expressionOver_at ih

theorem expression_at : ReadsExpressions expression := by
  rintro c t c' ⟨f, f', h⟩
  rw [expression, run_nested] at h
  exact expressionOver_at (expressionWithin_at c.openings) ⟨f, f', h⟩

/-- A formula is an expression with nothing but blanks around it. -/
theorem formula_at {t : ExpressionTree} (h : Gives formula c t c') :
    ∃ d, ExpressionAt c.afterGap t d ∧ d.afterGap.rest = [] := by
  unfold formula formulaOver at h
  obtain ⟨_, c₁, hgap, h⟩ := h.of_named.of_bind
  obtain ⟨e, c₂, he, h⟩ := h.of_bind
  obtain ⟨_, c₃, hgap', h⟩ := h.of_bind
  obtain ⟨_, c₄, hend, h⟩ := h.of_bind
  obtain ⟨rfl, rfl⟩ := h.of_pure
  obtain ⟨rfl, hrest⟩ := hend.of_named.of_atEnd
  obtain rfl := hgap.of_gap
  obtain rfl := hgap'.of_gap
  exact ⟨c₂, expression_at he, hrest⟩

/-- A text that is read as a whole is read as its parse tree. -/
theorem tree_at {source : String} {t : ExpressionTree} (h : tree source = .ok t) :
    ∃ d, ExpressionAt (Cursor.ofString source).afterGap t d ∧ d.afterGap.rest = [] := by
  unfold tree matchFrom at h
  split at h
  · rename_i t' c' f' hrun
    rw [Except.ok.injEq] at h
    subst h
    exact formula_at ⟨_, _, hrun⟩
  · simp at h

end MetricFormula.Grammar
