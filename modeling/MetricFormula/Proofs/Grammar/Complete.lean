/-
  Proofs/Grammar/Complete: every sentence of the grammar is read.

  The matchers choose in a fixed order and never take a choice back, so a phrase is
  found only because at most one choice can succeed at each token (`refuses_*`) and
  because a repetition ends where no further step can follow.  What follows a phrase is
  therefore part of each statement: no operator of the phrase's own kind comes next.

  By recursion on the phrase, the levels below its depth are enough to read it
  (`expression_reads`).  A text opens more parentheses than its phrase is deep, so a
  whole sentence is read (`tree_complete`), and it has one derivation
  (`IsExpression.unique`).
-/
import MetricFormula.Proofs.Grammar.Matcher
import MetricFormula.Proofs.Grammar.Phrase

set_option autoImplicit false

namespace MetricFormula.Grammar

open Matcher

variable {c : Cursor} {ts us vs : List Token}

/-! ## What comes next -/

/-- None of some symbols is the next token. -/
def NotNext (cs : List Char) (ts : List Token) : Prop :=
  ∀ d ∈ cs, ts.head? ≠ some (.symbol d)

theorem NotNext.mono {cs ds : List Char} (h : NotNext ds ts) (hsub : ∀ d ∈ cs, d ∈ ds) :
    NotNext cs ts := fun d hd => h d (hsub d hd)

theorem notNext_symbol {cs : List Char} {d : Char} (h : d ∉ cs) :
    NotNext cs (.symbol d :: ts) := by
  intro e he heq
  rw [List.head?_cons, Option.some.injEq, Token.symbol.injEq] at heq
  exact h (heq ▸ he)

theorem notNext_nil {cs : List Char} : NotNext cs [] := by
  intro d _ h
  simp at h

/-- A factor is followed by a step or by what follows its term. -/
theorem AreExpressionSteps.notNext {steps : List ExpressionPhraseStep}
    (h : AreExpressionSteps ts steps us) (hus : NotNext ['*', '/'] us) :
    NotNext ['*', '/'] ts := by
  cases h with
  | nil => exact hus
  | @cons _ _ _ operator _ _ _ _ => exact notNext_symbol (by cases operator <;> decide)

/-- An argument is followed by a comma or by the closing parenthesis. -/
theorem AreArguments.notNext {es : List ExpressionPhrase}
    (h : AreArguments ts es (.symbol ')' :: us)) : NotNext ['+', '-', '*', '/'] ts := by
  cases h with
  | nil => exact notNext_symbol (by decide)
  | cons _ _ => exact notNext_symbol (by decide)

/-! ## Words -/

theorem Cut.front_afterGap (h : Cut c.rest ts) : Front c.afterGap.rest ts := h.front

theorem reads_gap_front (h : Cut c.rest ts) : ∃ c', Reads gap c () c' ∧ Front c'.rest ts :=
  ⟨c.afterGap, reads_gap, h.front_afterGap⟩

theorem reads_char_front {d : Char} (h : Front c.rest (.symbol d :: ts)) :
    ∃ c', Reads (char d) c () c' ∧ Cut c'.rest ts := by
  obtain ⟨rest, hm, hcut⟩ := h.of_cons
  obtain ⟨c', hread, hrest⟩ := reads_char hm.append.symm
  exact ⟨c', hread, by rwa [hrest]⟩

theorem refuses_char_front {d : Char} (h : Front c.rest ts) (hd : d ∈ symbols)
    (hne : ts.head? ≠ some (.symbol d)) : Refuses (char d) c := by
  apply refuses_char
  intro hhead
  obtain ⟨t, ht, hstart⟩ := h.starts_of_head hhead
  rw [hstart.eq_symbol hd] at ht
  exact hne ht

theorem reads_identifier {x : List Char} (h : Front c.rest (.name x :: ts)) :
    ∃ l c', Reads identifier c l c' ∧ l.text.toList = x ∧ Cut c'.rest ts := by
  obtain ⟨rest, hm, hcut⟩ := h.of_cons
  obtain ⟨l, c', hread, htext, hrest⟩ := reads_lexeme (identifier_iff_munches.mpr hm)
  exact ⟨l, c', hread.named, htext, by rwa [hrest]⟩

theorem reads_constant {x : List Char} (h : Front c.rest (.literal x :: ts)) :
    ∃ l c', Reads constant c l c' ∧ l.text.toList = x ∧ Cut c'.rest ts := by
  obtain ⟨rest, hm, hcut⟩ := h.of_cons
  obtain ⟨l, c', hread, htext, hrest⟩ := reads_lexeme (constant_iff_munches.mpr hm)
  exact ⟨l, c', hread.named, htext, by rwa [hrest]⟩

/-- A text that starts with a token has no other longest token. -/
theorem Front.munches {t u : Token} {rest : List Char} (h : Front c.rest (t :: ts))
    (hu : Munches c.rest u rest) : t = u := by
  obtain ⟨tail, hm, _⟩ := h.of_cons
  exact (hm.unique hu).1

theorem refuses_identifier {t : Token} (h : Front c.rest (t :: ts)) (hne : ∀ x, t ≠ .name x) :
    Refuses identifier c := by
  refine Refuses.named (refuses_lexeme ?_)
  cases hscan : Scan.identifier c.rest with
  | none => rfl
  | some r => exact absurd (h.munches (identifier_iff_munches.mp hscan)) (hne r.1)

theorem refuses_constant {t : Token} (h : Front c.rest (t :: ts)) (hne : ∀ x, t ≠ .literal x) :
    Refuses constant c := by
  refine Refuses.named (refuses_lexeme ?_)
  cases hscan : Scan.constant c.rest with
  | none => rfl
  | some r => exact absurd (h.munches (constant_iff_munches.mp hscan)) (hne r.1)

/-! ## Operators -/

/-- A symbol that comes first is read with its place. -/
theorem reads_placed {α : Type} {rule : Rule} {x : α} {d : Char}
    (h : Front c.rest (.symbol d :: ts)) :
    ∃ c', Reads (named rule do
      let place ← offset
      char d
      pure (x, place)) c (x, c.offset) c' ∧ Cut c'.rest ts := by
  obtain ⟨c', hread, hcut⟩ := reads_char_front h
  have hplaced : Reads (char d >>= fun _ => pure (x, c.offset)) c (x, c.offset) c' :=
    hread.bind reads_pure
  exact ⟨c', (reads_offset.bind hplaced).named, hcut⟩

theorem refuses_placed {α : Type} {rule : Rule} {x : α} {d : Char} (h : Front c.rest ts)
    (hd : d ∈ symbols) (hne : ts.head? ≠ some (.symbol d)) :
    Refuses (named rule do
      let place ← offset
      char d
      pure (x, place)) c :=
  (reads_offset.bind_refuses (refuses_char_front h hd hne).bind).named

theorem reads_additive {operator : AdditiveOperator}
    (h : Front c.rest (.symbol operator.symbol :: ts)) :
    ∃ c', Reads (additiveSymbol .plus <|> additiveSymbol .minus) c (operator, c.offset) c' ∧
      Cut c'.rest ts := by
  have hplaced : ∃ c', Reads (additiveSymbol operator) c (operator, c.offset) c' ∧ Cut c'.rest ts :=
    reads_placed h
  obtain ⟨c', hread, hcut⟩ := hplaced
  cases operator with
  | plus => exact ⟨c', hread.orElse, hcut⟩
  | minus =>
      have hplus : Refuses (additiveSymbol .plus) c :=
        refuses_placed h (by decide) (by simp [AdditiveOperator.symbol])
      exact ⟨c', hplus.orElse_reads hread, hcut⟩

theorem refuses_additive (h : Front c.rest ts) (hne : NotNext ['+', '-'] ts) :
    Refuses (additiveSymbol .plus <|> additiveSymbol .minus) c := by
  have hplus : Refuses (additiveSymbol .plus) c :=
    refuses_placed h (by decide) (hne '+' (by decide))
  have hminus : Refuses (additiveSymbol .minus) c :=
    refuses_placed h (by decide) (hne '-' (by decide))
  exact hplus.orElse hminus

theorem reads_multiplicative {operator : MultiplicativeOperator}
    (h : Front c.rest (.symbol operator.symbol :: ts)) :
    ∃ c', Reads (multiplicativeSymbol .times <|> multiplicativeSymbol .dividedBy) c
      (operator, c.offset) c' ∧ Cut c'.rest ts := by
  have hplaced : ∃ c', Reads (multiplicativeSymbol operator) c (operator, c.offset) c' ∧
      Cut c'.rest ts := reads_placed h
  obtain ⟨c', hread, hcut⟩ := hplaced
  cases operator with
  | times => exact ⟨c', hread.orElse, hcut⟩
  | dividedBy =>
      have htimes : Refuses (multiplicativeSymbol .times) c :=
        refuses_placed h (by decide) (by simp [MultiplicativeOperator.symbol])
      exact ⟨c', htimes.orElse_reads hread, hcut⟩

theorem refuses_multiplicative (h : Front c.rest ts) (hne : NotNext ['*', '/'] ts) :
    Refuses (multiplicativeSymbol .times <|> multiplicativeSymbol .dividedBy) c := by
  have htimes : Refuses (multiplicativeSymbol .times) c :=
    refuses_placed h (by decide) (hne '*' (by decide))
  have hdividedBy : Refuses (multiplicativeSymbol .dividedBy) c :=
    refuses_placed h (by decide) (hne '/' (by decide))
  exact htimes.orElse hdividedBy

/-! ## Factors -/

section Level

variable {inner : Matcher ExpressionTree}

theorem refuses_callOver {t : Token} (h : Front c.rest (t :: ts)) (hne : ∀ x, t ≠ .name x) :
    Refuses (callOver inner) c :=
  (refuses_identifier h hne).bind.spanned.bind.named

theorem refuses_reference {t : Token} (h : Front c.rest (t :: ts)) (hne : ∀ x, t ≠ .name x) :
    Refuses reference c :=
  (refuses_identifier h hne).bind.spanned.bind.named

/-- A name is not a call unless an opening parenthesis follows. -/
theorem refuses_callOver_name {x : List Char} (h : Front c.rest (.name x :: us))
    (hne : us.head? ≠ some (.symbol '(')) : Refuses (callOver inner) c := by
  obtain ⟨l, c₁, hl, _, hcut⟩ := reads_identifier h
  obtain ⟨c₂, hgap, hfront⟩ := reads_gap_front hcut
  have hopen := refuses_char_front hfront (by decide) hne
  exact (hl.bind_refuses (hgap.bind_refuses hopen.bind)).spanned.bind.named

theorem reads_reference {x : List Char} (h : Front c.rest (.name x :: us))
    (hne : us.head? ≠ some (.symbol '(')) :
    ∃ y c', Reads (factorOver inner) c y c' ∧ y.phrase = .reference x ∧ Cut c'.rest us := by
  obtain ⟨l, c₁, hl, htext, hcut⟩ := reads_identifier h
  obtain ⟨c₂, hgap, hfront⟩ := reads_gap_front hcut
  have hahead : Reads (notAhead '(') c₂ () c₂ := by
    apply reads_notAhead
    intro hhead
    obtain ⟨t, ht, hstart⟩ := hfront.starts_of_head hhead
    rw [hstart.eq_symbol (by decide)] at ht
    exact hne ht
  have hname : Reads (do
      let name ← identifier
      gap
      notAhead '('
      pure name) c l c₂ := hl.bind (hgap.bind (hahead.bind reads_pure))
  have hread : Reads reference c (.reference ⟨c.offset, c₂.offset⟩ l) c₂ := by
    apply Reads.named
    exact hname.spanned.bind reads_pure
  refine ⟨_, c₂, (refuses_callOver_name h hne).orElse_reads hread.orElse, ?_, hfront.cut⟩
  rw [FactorTree.phrase, htext]

theorem reads_literal {x : List Char} (h : Front c.rest (.literal x :: us)) :
    ∃ y c', Reads (factorOver inner) c y c' ∧ y.phrase = .constant x ∧ Cut c'.rest us := by
  obtain ⟨l, c₁, hl, htext, hcut⟩ := reads_constant h
  have hread : Reads (constant >>= fun literal => pure (.constant literal)) c
      (FactorTree.constant l) c₁ := hl.bind reads_pure
  refine ⟨.constant l, c₁, (refuses_callOver h (by simp)).orElse_reads
    ((refuses_reference h (by simp)).orElse_reads hread.orElse), ?_, hcut⟩
  rw [FactorTree.phrase, htext]

/-- An opening parenthesis starts nothing but a group. -/
theorem reads_of_groupedOver {y : FactorTree} {c' : Cursor}
    (h : Front c.rest (.symbol '(' :: ts)) (hread : Reads (groupedOver inner) c y c') :
    Reads (factorOver inner) c y c' := by
  have hconstant : Refuses (constant >>= fun literal => pure (FactorTree.constant literal)) c :=
    (refuses_constant h (by simp)).bind
  exact (refuses_callOver h (by simp)).orElse_reads
    ((refuses_reference h (by simp)).orElse_reads (hconstant.orElse_reads hread))

/-! ## Putting phrases together -/

variable {c' d : Cursor}

theorem reads_groupedOver {e : ExpressionTree} {c₁ c₂ c₃ c₄ c₅ : Cursor}
    (hopen : Reads (char '(') c () c₁) (hgap : Reads gap c₁ () c₂) (he : Reads inner c₂ e c₃)
    (hgap' : Reads gap c₃ () c₄) (hclose : Reads (char ')') c₄ () c₅) :
    Reads (groupedOver inner) c (.group e) c₅ :=
  hopen.bind (hgap.bind (he.bind (hgap'.bind (hclose.bind reads_pure))))

theorem reads_callOver {l : Lexeme} {e : ExpressionTree} {es : List ExpressionTree}
    {c₁ c₂ c₃ c₄ c₅ c₆ c₇ c₈ : Cursor} (hl : Reads identifier c l c₁)
    (hgap : Reads gap c₁ () c₂) (hopen : Reads (char '(') c₂ () c₃) (hgap' : Reads gap c₃ () c₄)
    (he : Reads inner c₄ e c₅) (hes : Reads (repeated (argumentOver inner)) c₅ es c₆)
    (hgap'' : Reads gap c₆ () c₇) (hclose : Reads (char ')') c₇ () c₈) :
    Reads (callOver inner) c (.call ⟨c.offset, c₈.offset⟩ l e es) c₈ := by
  have hparts : Reads (do
      let name ← identifier
      gap
      char '('
      gap
      let first ← inner
      let others ← repeated (argumentOver inner)
      gap
      char ')'
      pure (name, first, others)) c (l, e, es) c₈ :=
    hl.bind (hgap.bind (hopen.bind (hgap'.bind (he.bind (hes.bind (hgap''.bind
      (hclose.bind reads_pure)))))))
  apply Reads.named
  exact hparts.spanned.bind reads_pure

theorem reads_termStepOver {operator : MultiplicativeOperator} {place : Nat} {x : FactorTree}
    {c₁ c₂ c₃ : Cursor}
    (hoperator : Reads (multiplicativeSymbol .times <|> multiplicativeSymbol .dividedBy) c
      (operator, place) c₁)
    (hgap : Reads gap c₁ () c₂) (hx : Reads (factorOver inner) c₂ x c₃) :
    Reads (termStepOver inner) c (.mk operator place x) c₃ :=
  hoperator.bind (hgap.bind (hx.bind reads_pure))

theorem reads_termOver {x : FactorTree} {xs : List TermStep} (hx : Reads (factorOver inner) c x d)
    (hxs : Reads (repeated (termStepOver inner)) d xs c') :
    Reads (termOver inner) c (.mk ⟨c.offset, c'.offset⟩ x xs) c' := by
  have hparts : Reads (do
      let first ← factorOver inner
      let steps ← repeated (termStepOver inner)
      pure (first, steps)) c (x, xs) c' := hx.bind (hxs.bind reads_pure)
  apply Reads.named
  exact hparts.spanned.bind reads_pure

theorem reads_expressionStepOver {operator : AdditiveOperator} {place : Nat} {t : TermTree}
    {c₁ c₂ c₃ : Cursor}
    (hoperator : Reads (additiveSymbol .plus <|> additiveSymbol .minus) c (operator, place) c₁)
    (hgap : Reads gap c₁ () c₂) (ht : Reads (termOver inner) c₂ t c₃) :
    Reads (expressionStepOver inner) c (.mk operator place t) c₃ :=
  hoperator.bind (hgap.bind (ht.bind reads_pure))

theorem reads_expressionOver {t : TermTree} {ss : List ExpressionStep}
    (ht : Reads (termOver inner) c t d)
    (hss : Reads (repeated (expressionStepOver inner)) d ss c') :
    Reads (expressionOver inner) c (.mk ⟨c.offset, c'.offset⟩ t ss) c' := by
  have hparts : Reads (do
      let first ← termOver inner
      let steps ← repeated (expressionStepOver inner)
      pure (first, steps)) c (t, ss) c' := ht.bind (hss.bind reads_pure)
  apply Reads.named
  exact hparts.spanned.bind reads_pure

end Level

/-! ## Phrases -/

mutual

/-- An expression is read, if the levels below suffice for its depth. -/
theorem expression_reads : ∀ (e : ExpressionPhrase) {ts us : List Token}, IsExpression ts e us →
    ∀ {n : Nat}, e.depth ≤ n → NotNext ['+', '-', '*', '/'] us →
    ∀ {c : Cursor}, Front c.rest ts →
    ∃ t c', Reads (expressionOver (expressionWithin fail n)) c t c' ∧ t.phrase = e ∧
      Cut c'.rest us
  | .mk first steps, _, us, .mk hfirst hsteps, n, hn, hus, c, hc => by
      rw [ExpressionPhrase.depth] at hn
      have hus' : NotNext ['*', '/'] us := hus.mono (by simp)
      obtain ⟨x, c₁, hx, hxphrase, hcut⟩ :=
        term_reads first hfirst (n := n) (by omega) (hsteps.notNext hus') hc
      obtain ⟨xs, c₂, hxs, hxsphrase, hcut'⟩ :=
        expressionSteps_read steps hsteps (n := n) (by omega) hus hcut
      obtain ⟨c₃, hrepeated, hrest⟩ := hxs.repeated
      refine ⟨_, c₃, reads_expressionOver hx hrepeated, ?_, ?_⟩
      · rw [ExpressionTree.phrase, hxphrase, hxsphrase]
      · rcases hrest with h | h <;> rw [h]
        · exact hcut'
        · exact hcut'.dropWhile

/-- The steps of an expression are read one after the other. -/
theorem expressionSteps_read : ∀ (steps : List ExpressionPhraseStep) {ts us : List Token},
    AreExpressionSteps ts steps us →
    ∀ {n : Nat}, ExpressionPhrase.stepsDepth steps ≤ n → NotNext ['+', '-', '*', '/'] us →
    ∀ {c : Cursor}, Cut c.rest ts →
    ∃ ss c', ReadsAll (do gap; expressionStepOver (expressionWithin fail n)) c ss c' ∧
      ExpressionTree.stepPhrases ss = steps ∧ Cut c'.rest us
  | [], _, us, .nil, n, _, hus, c, hc => by
      have hoperator := refuses_additive hc.front_afterGap (hus.mono (by simp))
      exact ⟨[], c, .nil (reads_gap.bind_refuses hoperator.bind), rfl, hc⟩
  | .mk operator term :: steps, _, us, .cons hterm hsteps, n, hn, hus, c, hc => by
      rw [ExpressionPhrase.stepsDepth] at hn
      have hus' : NotNext ['*', '/'] us := hus.mono (by simp)
      obtain ⟨c₁, hoperator, hcut⟩ := reads_additive hc.front_afterGap
      obtain ⟨c₂, hgap, hfront⟩ := reads_gap_front hcut
      obtain ⟨x, c₃, hx, hxphrase, hcut'⟩ :=
        term_reads term hterm (n := n) (by omega) (hsteps.notNext hus') hfront
      obtain ⟨xs, c₄, hxs, hxsphrase, hcut''⟩ :=
        expressionSteps_read steps hsteps (n := n) (by omega) hus hcut'
      have hstep := reads_expressionStepOver hoperator hgap hx
      refine ⟨_, c₄, .cons (reads_gap.bind hstep) ?_ hxs, ?_, hcut''⟩
      · -- Every step is one of the tokens that are left.
        have hlen : xs.length = steps.length := by
          rw [← hxsphrase, ExpressionTree.length_stepPhrases]
        obtain ⟨read, rfl, _, hle⟩ := hsteps.append
        have := hcut'.length_le
        rw [List.length_append] at this
        omega
      · rw [ExpressionTree.stepPhrases, hxphrase, hxsphrase]

/-- A term is read, if the levels below suffice for its depth. -/
theorem term_reads : ∀ (t : TermPhrase) {ts us : List Token}, IsTerm ts t us →
    ∀ {n : Nat}, t.depth ≤ n → NotNext ['*', '/'] us → ∀ {c : Cursor}, Front c.rest ts →
    ∃ y c', Reads (termOver (expressionWithin fail n)) c y c' ∧ y.phrase = t ∧ Cut c'.rest us
  | .mk first steps, _, us, .mk hfirst hsteps, n, hn, hus, c, hc => by
      rw [TermPhrase.depth] at hn
      obtain ⟨x, c₁, hx, hxphrase, hcut⟩ := factor_reads first hfirst (n := n) (by omega) hc
      obtain ⟨xs, c₂, hxs, hxsphrase, hcut'⟩ :=
        termSteps_read steps hsteps (n := n) (by omega) hus hcut
      obtain ⟨c₃, hrepeated, hrest⟩ := hxs.repeated
      refine ⟨_, c₃, reads_termOver hx hrepeated, ?_, ?_⟩
      · rw [TermTree.phrase, hxphrase, hxsphrase]
      · rcases hrest with h | h <;> rw [h]
        · exact hcut'
        · exact hcut'.dropWhile

/-- The steps of a term are read one after the other. -/
theorem termSteps_read : ∀ (steps : List TermPhraseStep) {ts us : List Token},
    AreTermSteps ts steps us →
    ∀ {n : Nat}, TermPhrase.stepsDepth steps ≤ n → NotNext ['*', '/'] us →
    ∀ {c : Cursor}, Cut c.rest ts →
    ∃ ss c', ReadsAll (do gap; termStepOver (expressionWithin fail n)) c ss c' ∧
      TermTree.stepPhrases ss = steps ∧ Cut c'.rest us
  | [], _, us, .nil, n, _, hus, c, hc => by
      have hoperator := refuses_multiplicative hc.front_afterGap hus
      exact ⟨[], c, .nil (reads_gap.bind_refuses hoperator.bind), rfl, hc⟩
  | .mk operator factor :: steps, _, us, .cons hfactor hsteps, n, hn, hus, c, hc => by
      rw [TermPhrase.stepsDepth] at hn
      obtain ⟨c₁, hoperator, hcut⟩ := reads_multiplicative hc.front_afterGap
      obtain ⟨c₂, hgap, hfront⟩ := reads_gap_front hcut
      obtain ⟨x, c₃, hx, hxphrase, hcut'⟩ := factor_reads factor hfactor (n := n) (by omega) hfront
      obtain ⟨xs, c₄, hxs, hxsphrase, hcut''⟩ :=
        termSteps_read steps hsteps (n := n) (by omega) hus hcut'
      have hstep := reads_termStepOver hoperator hgap hx
      refine ⟨_, c₄, .cons (reads_gap.bind hstep) ?_ hxs, ?_, hcut''⟩
      · have hlen : xs.length = steps.length := by
          rw [← hxsphrase, TermTree.length_stepPhrases]
        obtain ⟨read, rfl, _, hle⟩ := hsteps.append
        have := hcut'.length_le
        rw [List.length_append] at this
        omega
      · rw [TermTree.stepPhrases, hxphrase, hxsphrase]

/-- A factor is read, if the levels below suffice for its depth. -/
theorem factor_reads : ∀ (x : FactorPhrase) {ts us : List Token}, IsFactor ts x us →
    ∀ {n : Nat}, x.depth ≤ n → ∀ {c : Cursor}, Front c.rest ts →
    ∃ y c', Reads (factorOver (expressionWithin fail n)) c y c' ∧ y.phrase = x ∧ Cut c'.rest us
  | .reference name, _, us, .reference hne, n, _, c, hc => reads_reference hc hne
  | .constant literal, _, us, .constant, n, _, c, hc => reads_literal hc
  | .group inner, _, us, .group hinner, n, hn, c, hc => by
      rw [FactorPhrase.depth] at hn
      obtain ⟨n, rfl⟩ : ∃ m, n = m + 1 := ⟨n - 1, by omega⟩
      obtain ⟨c₁, hopen, hcut⟩ := reads_char_front hc
      obtain ⟨c₂, hgap, hfront⟩ := reads_gap_front hcut
      obtain ⟨e, c₃, he, hephrase, hcut'⟩ := expression_reads inner hinner (n := n) (by omega)
        (notNext_symbol (by decide)) hfront
      obtain ⟨c₄, hgap', hfront'⟩ := reads_gap_front hcut'
      obtain ⟨c₅, hclose, hcut''⟩ := reads_char_front hfront'
      have hgrouped : Reads (groupedOver (expressionWithin fail (n + 1))) c (.group e) c₅ :=
        reads_groupedOver hopen hgap he hgap' hclose
      exact ⟨.group e, c₅, reads_of_groupedOver hc hgrouped, by rw [FactorTree.phrase, hephrase],
        hcut''⟩
  | .call name first others, _, us, .call hfirst hothers, n, hn, c, hc => by
      rw [FactorPhrase.depth] at hn
      obtain ⟨n, rfl⟩ : ∃ m, n = m + 1 := ⟨n - 1, by omega⟩
      obtain ⟨l, c₁, hl, htext, hcut⟩ := reads_identifier hc
      obtain ⟨c₂, hgap, hfront⟩ := reads_gap_front hcut
      obtain ⟨c₃, hopen, hcut⟩ := reads_char_front hfront
      obtain ⟨c₄, hgap', hfront⟩ := reads_gap_front hcut
      obtain ⟨e, c₅, he, hephrase, hcut⟩ := expression_reads first hfirst (n := n) (by omega)
        hothers.notNext hfront
      obtain ⟨es, c₆, hes, hesphrase, hcut⟩ := arguments_read others hothers (n := n) (by omega)
        hcut
      obtain ⟨c₇, hrepeated, hrest⟩ := hes.repeated
      have hcut : Cut c₇.rest (.symbol ')' :: us) := by
        rcases hrest with h | h <;> rw [h]
        · exact hcut
        · exact hcut.dropWhile
      obtain ⟨c₈, hgap'', hfront⟩ := reads_gap_front hcut
      obtain ⟨c₉, hclose, hcut⟩ := reads_char_front hfront
      have hcall : Reads (callOver (expressionWithin fail (n + 1))) c
          (.call ⟨c.offset, c₉.offset⟩ l e es) c₉ :=
        reads_callOver hl hgap hopen hgap' he hrepeated hgap'' hclose
      refine ⟨_, c₉, hcall.orElse, ?_, hcut⟩
      rw [FactorTree.phrase, htext, hephrase, hesphrase]

/-- Arguments are read one after the other. -/
theorem arguments_read : ∀ (es : List ExpressionPhrase) {ts us : List Token},
    AreArguments ts es (.symbol ')' :: us) →
    ∀ {n : Nat}, ExpressionPhrase.depths es ≤ n → ∀ {c : Cursor}, Cut c.rest ts →
    ∃ ys c', ReadsAll (do gap; argumentOver (expressionWithin fail (n + 1))) c ys c' ∧
      ExpressionTree.phrases ys = es ∧ Cut c'.rest (.symbol ')' :: us)
  | [], _, us, .nil, n, _, c, hc => by
      have hcomma := refuses_char_front (d := ',') hc.front_afterGap (by decide) (by simp)
      exact ⟨[], c, .nil (reads_gap.bind_refuses hcomma.bind), rfl, hc⟩
  | e :: es, _, us, .cons he hes, n, hn, c, hc => by
      rw [ExpressionPhrase.depths] at hn
      obtain ⟨c₁, hcomma, hcut⟩ := reads_char_front hc.front_afterGap
      obtain ⟨c₂, hgap, hfront⟩ := reads_gap_front hcut
      obtain ⟨y, c₃, hy, hyphrase, hcut'⟩ := expression_reads e he (n := n) (by omega) hes.notNext
        hfront
      obtain ⟨ys, c₄, hys, hysphrase, hcut''⟩ := arguments_read es hes (n := n) (by omega) hcut'
      have hargument : Reads (argumentOver (expressionWithin fail (n + 1))) c.afterGap y c₃ :=
        hcomma.bind (hgap.bind hy)
      refine ⟨_, c₄, .cons (reads_gap.bind hargument) ?_ hys, ?_, hcut''⟩
      · have hlen : ys.length = es.length := by
          rw [← hysphrase, ExpressionTree.length_phrases]
        obtain ⟨read, rfl, _, hle⟩ := hes.append
        have := hcut'.length_le
        rw [List.length_append] at this
        omega
      · rw [ExpressionTree.phrases, hyphrase, hysphrase]

end

/-! ## Whole texts -/

/-- A sentence is read, since its text opens as many parentheses as its phrase is
deep. -/
theorem formula_reads {e : ExpressionPhrase} (he : IsExpression ts e []) (hcut : Cut c.rest ts) :
    ∃ t c', Reads formula c t c' ∧ t.phrase = e := by
  obtain ⟨c₁, hgap, hfront⟩ := reads_gap_front hcut
  have hdepth : e.depth ≤ c₁.openings := by
    obtain ⟨read, rfl, hle, _⟩ := he.append
    have := hfront.cut.count_le
    rw [List.append_nil] at this
    exact Nat.le_trans hle this
  obtain ⟨t, c₂, ht, hphrase, hcut'⟩ := expression_reads e he hdepth notNext_nil hfront
  have hexpression : Reads expression c₁ t c₂ := by
    intro f
    obtain ⟨f', hf⟩ := ht f
    exact ⟨f', by rw [expression, run_nested, hf]⟩
  obtain ⟨c₃, hgap', hfront'⟩ := reads_gap_front hcut'
  have hend : Reads endOfInput c₃ () c₃ := (reads_atEnd hfront'.of_nil).named
  refine ⟨t, c₃, ?_, hphrase⟩
  unfold formula formulaOver
  apply Reads.named
  exact hgap.bind (hexpression.bind (hgap'.bind (hend.bind reads_pure)))

/-- Every sentence of the grammar has a parse tree, and it is that of the
sentence. -/
theorem tree_complete {source : String} {e : ExpressionPhrase} (hcut : Cut source.toList ts)
    (he : IsExpression ts e []) : ∃ t, tree source = .ok t ∧ t.phrase = e := by
  obtain ⟨t, c', hread, hphrase⟩ := formula_reads (c := Cursor.ofString source) he hcut
  obtain ⟨f', hf⟩ := hread Frontier.initial
  exact ⟨t, by unfold tree matchFrom; rw [hf], hphrase⟩

/-- The tokens of a text have at most one derivation. -/
theorem IsExpression.unique {cs : List Char} {e e' : ExpressionPhrase} (hcut : Cut cs ts)
    (he : IsExpression ts e []) (he' : IsExpression ts e' []) : e = e' := by
  obtain ⟨t, c₁, hread, rfl⟩ := formula_reads (c := ⟨cs, 0⟩) he hcut
  obtain ⟨t', c₂, hread', rfl⟩ := formula_reads (c := ⟨cs, 0⟩) he' hcut
  rw [hread.unique hread']

end MetricFormula.Grammar
