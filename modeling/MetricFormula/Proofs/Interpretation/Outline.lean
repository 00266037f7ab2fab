/-
  Proofs/Interpretation/Outline: the outline of a text is interpreted as its parse tree.

  The outline that the grammar leaves for a text is that of its parse tree (`main_outline`),
  and the words of the tree stand at their ranges in the text (`FactorTree.Legible`).  So the
  walk over the outline takes the steps of the walk over the tree (`outlineExpression_eq`), and
  comes to none of its inconsistencies, whatever the interpretation (`runOutline_eq_run`).
-/
import MetricFormula.Interpretation.Outline
import MetricFormula.Proofs.Localisation

set_option autoImplicit false

namespace MetricFormula

open MetricFormula.Grammar MetricFormula.Text

/-- What a span covers is what is read there. -/
theorem Span.Covers.read_eq {source text : String} {span : Span} (h : span.Covers source text) :
    span.read source = text := by
  have hlength := h.byteLength_eq
  obtain ⟨before, after, rfl, hstart, -⟩ := h
  rw [Span.read, ← hlength, ← hstart, String.toList_append, String.toList_append,
    List.append_assoc, dropBytes_append, takeBytes_append, String.ofList_toList]

/-! ## Words at their places -/

/-- The words of a factor itself are read at their ranges. -/
def Grammar.FactorTree.Legible (source : String) : FactorTree → Prop
  | .call _ name _ _ => name.span.read source = name.text
  | .reference _ name => name.span.read source = name.text
  | .constant literal => literal.span.read source = literal.text
  | .group _ => True

/-- All factors among some parts are legible. -/
def Grammar.Part.AreLegible (source : String) (ps : List Part) : Prop :=
  ∀ x, .factor x ∈ ps → x.Legible source

theorem Grammar.Part.AreLegible.mono {source : String} {ps qs : List Part}
    (h : AreLegible source qs) (hsub : ∀ p ∈ ps, p ∈ qs) : AreLegible source ps :=
  fun x hx => h x (hsub _ hx)

namespace Interpretation

open MetricFormula.Grammar.Part (AreLegible)

section Words

variable {maxDepth : Nat} {source : String} {c c' : Cursor}

/-- A word stands at its range. -/
theorem read_of_tokenAt {t : Token} {text : String} {span : Span}
    (hreach : (Cursor.ofString source).Reaches c) (htoken : TokenAt c t c')
    (htext : t.text = text.toList) (hspan : span = ⟨c.offset, c'.offset⟩) :
    span.read source = text := by
  have hcovers := covers_of_reaches hreach htoken.between
  rw [htext, String.ofList_toList, ← hspan] at hcovers
  exact hcovers.read_eq

/-- The parts of a parse tree are legible. -/
theorem areLegible_of_parse {t : ExpressionTree} (h : parse maxDepth source = .ok t) :
    AreLegible source t.parts := by
  intro x hx
  obtain ⟨d, d', hreach, hread⟩ := readFrom_of_parse h _ hx
  cases hread with
  | call hname hspan _ _ _ _ => exact read_of_tokenAt hreach hname rfl hspan
  | reference hname hspan => exact read_of_tokenAt hreach hname rfl hspan
  | constant hliteral hspan => exact read_of_tokenAt hreach hliteral rfl hspan
  | group _ _ _ => trivial

end Words

/-! ## The walk -/

section Walk

variable {σ ε τ φ : Type} (I : Interpretation σ ε τ φ) {source : String}

theorem outlineTerms_operator (operator operator' : AdditiveOperator) (span : Span)
    (inside parts : List Outline) :
    I.outlineTerms source operator (.mk operator'.rule span inside :: parts) =
      I.outlineTerms source operator' parts := by
  cases operator' <;> rfl

theorem outlineTerms_term (operator : AdditiveOperator) (t : TermTree) (parts : List Outline) :
    I.outlineTerms source operator (t.outline :: parts) = (do
      let term ← I.outlineTerm source t.outline
      let terms ← I.outlineTerms source operator parts
      pure ((operator, term) :: terms)) := by
  cases t
  rfl

theorem outlineOperands_operator (operator operator' : MultiplicativeOperator) (span : Span)
    (inside parts : List Outline) :
    I.outlineOperands source operator (.mk operator'.rule span inside :: parts) =
      I.outlineOperands source operator' parts := by
  cases operator' <;> rfl

mutual

/-- The walk over the outline of an expression is the walk over the expression. -/
theorem outlineExpression_eq : ∀ {t : ExpressionTree}, AreLegible source t.parts →
    I.outlineExpression source t.outline = I.walk t
  | .mk span first steps, h => by
      have hfirst : AreLegible source first.parts := h.mono (by grind [ExpressionTree.parts])
      have hsteps : AreLegible source (ExpressionTree.stepParts steps) :=
        h.mono (by grind [ExpressionTree.parts])
      rw [ExpressionTree.outline, outlineExpression, outlineTerms_term, outlineTerm_eq hfirst,
        outlineTerms_eq .plus hsteps, walk]
      simp only [bind_assoc, pure_bind]
      rfl

theorem outlineTerms_eq (operator : AdditiveOperator) : ∀ {steps : List ExpressionStep},
    AreLegible source (ExpressionTree.stepParts steps) →
    I.outlineTerms source operator (ExpressionTree.stepOutlines steps) = I.walkSteps steps
  | [], _ => rfl
  | .mk operator' place term :: steps, h => by
      have hterm : AreLegible source term.parts := h.mono (by grind [ExpressionTree.stepParts])
      have hsteps : AreLegible source (ExpressionTree.stepParts steps) :=
        h.mono (by grind [ExpressionTree.stepParts])
      rw [ExpressionTree.stepOutlines, ExpressionStep.outlines, List.cons_append,
        outlineTerms_operator, List.singleton_append, outlineTerms_term, outlineTerm_eq hterm,
        outlineTerms_eq operator' hsteps, walkSteps, walkStep]
      simp only [bind_assoc, pure_bind]

theorem outlineTerm_eq : ∀ {t : TermTree}, AreLegible source t.parts →
    I.outlineTerm source t.outline = I.walkTerm t
  | .mk span first steps, h => by
      have hfirst : AreLegible source first.parts := h.mono (by grind [TermTree.parts])
      have hsteps : AreLegible source (TermTree.stepParts steps) :=
        h.mono (by grind [TermTree.parts])
      rw [TermTree.outline, outlineTerm, outlineOperands_factor .times hfirst,
        outlineOperands_eq .times hsteps, walkTerm]
      simp only [bind_assoc, pure_bind]
      rfl

theorem outlineOperands_eq (operator : MultiplicativeOperator) : ∀ {steps : List TermStep},
    AreLegible source (TermTree.stepParts steps) →
    I.outlineOperands source operator (TermTree.stepOutlines steps) = I.walkTermSteps steps
  | [], _ => rfl
  | .mk operator' place factor :: steps, h => by
      have hfactor : AreLegible source factor.parts := h.mono (by grind [TermTree.stepParts])
      have hsteps : AreLegible source (TermTree.stepParts steps) :=
        h.mono (by grind [TermTree.stepParts])
      rw [TermTree.stepOutlines, TermStep.outlines, List.cons_append, outlineOperands_operator,
        List.singleton_append, outlineOperands_factor operator' hfactor,
        outlineOperands_eq operator' hsteps, walkTermSteps, walkTermStep]
      simp only [bind_assoc, pure_bind]

/-- A factor stands under the last operator before it, and a group shows the expression
inside it. -/
theorem outlineOperands_factor (operator : MultiplicativeOperator) : ∀ {x : FactorTree}
    {parts : List Outline}, AreLegible source x.parts →
    I.outlineOperands source operator (x.outline :: parts) = (do
      let operand ← I.walkFactor x
      let operands ← I.outlineOperands source operator parts
      pure ((operator, operand) :: operands))
  | .call span name first others, parts, h => by
      have hname : name.span.read source = name.text := h _ List.mem_cons_self
      have hfirst : AreLegible source first.parts := h.mono (by grind [FactorTree.parts])
      have hothers : AreLegible source (ExpressionTree.argumentParts others) :=
        h.mono (by grind [FactorTree.parts])
      rw [FactorTree.outline, outlineOperands]
      simp only [Outline.rule, outlineCall, outlineArguments, Lexeme.outline, Outline.span, hname,
        outlineExpression_eq hfirst, outlineArguments_eq hothers, walkFactor, bind_assoc, pure_bind]
  | .reference span name, parts, h => by
      have hname : name.span.read source = name.text := h _ List.mem_cons_self
      rw [FactorTree.outline, outlineOperands]
      simp only [Outline.rule, outlineReference, Lexeme.outline, Outline.span, hname, walkFactor,
        pure_bind]
  | .constant literal, parts, h => by
      have hliteral : literal.span.read source = literal.text := h _ List.mem_cons_self
      rw [FactorTree.outline, Lexeme.outline, outlineOperands]
      simp only [Outline.rule, Outline.span, hliteral, walkFactor, bind_assoc, pure_bind]
  | .group (.mk span first steps), parts, h => by
      have hinner : AreLegible source (ExpressionTree.mk span first steps).parts :=
        h.mono (by grind [FactorTree.parts])
      have hrule : (ExpressionTree.mk span first steps).outline.rule = .expression := rfl
      have hspan : (ExpressionTree.mk span first steps).outline.span = span := rfl
      rw [FactorTree.outline, outlineOperands]
      simp only [hrule, hspan, outlineExpression_eq hinner, walkFactor, ExpressionTree.span,
        bind_assoc, pure_bind]

theorem outlineArguments_eq : ∀ {es : List ExpressionTree},
    AreLegible source (ExpressionTree.argumentParts es) →
    I.outlineArguments source (ExpressionTree.outlines es) = I.walkArguments es
  | [], _ => rfl
  | e :: es, h => by
      have he : AreLegible source e.parts := h.mono (by grind [ExpressionTree.argumentParts])
      have hes : AreLegible source (ExpressionTree.argumentParts es) :=
        h.mono (by grind [ExpressionTree.argumentParts])
      rw [ExpressionTree.outlines, outlineArguments, outlineExpression_eq he,
        outlineArguments_eq hes, walkArguments]

end

end Walk

/-! ## Texts -/

/-- The outline of a text has that of its parse tree, and the end of the text after it; where
there is no tree there is no outline. -/
theorem main_outline (source : String) :
    (∃ t span stop, Grammar.tree source = .ok t ∧ matchFrom (outlineFrom .main) source =
      .ok [.mk .main span [t.outline, .mk .endOfInput (Span.point stop) []]]) ∨
    ∃ f, Grammar.tree source = .error f ∧ matchFrom (outlineFrom .main) source = .error f := by
  unfold Grammar.tree matchFrom outlineFrom spanned
  simp only [Matcher.run_bind, Matcher.run_offset, Matcher.run_pure]
  rcases formula.run (Cursor.ofString source) Frontier.initial with ⟨_ | ⟨t, c⟩, f⟩
  · exact Or.inr ⟨f, rfl, rfl⟩
  · exact Or.inl ⟨t, _, _, rfl, rfl⟩

/-- Interpreting the outline of a text is interpreting the text, whatever the interpretation:
no rule in the outline is one that has no business there, and no word is missing. -/
theorem runOutline_eq_run {σ ε τ φ : Type} (I : Interpretation σ ε τ φ) (maxDepth : Nat)
    (source : String) : I.runOutline maxDepth source = I.run maxDepth source := by
  unfold runOutline run outlines
  cases hparse : parse maxDepth source with
  | error e =>
      rcases parse_eq_error.mp hparse with hnesting | ⟨hnesting, f, htree, rfl⟩
      · rw [hnesting]
        rfl
      · rcases main_outline source with ⟨t, _, _, htree', -⟩ | ⟨f', htree', houtline⟩
        · simp [htree] at htree'
        · obtain rfl : f = f' := Except.error.inj (htree.symm.trans htree')
          rw [hnesting, houtline]
          rfl
  | ok t =>
      obtain ⟨hnesting, htree⟩ := parse_eq_ok.mp hparse
      rcases main_outline source with ⟨t', span, stop, htree', houtline⟩ | ⟨f, htree', -⟩
      · obtain rfl : t = t' := Except.ok.inj (htree.symm.trans htree')
        rw [hnesting, houtline]
        exact outlineExpression_eq I (areLegible_of_parse hparse)
      · simp [htree] at htree'

end Interpretation

end MetricFormula
