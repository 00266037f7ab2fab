/-
  Proofs/Localisation: the place of a fault shows all that matters for it.

  A call that is not allowed, a variable without a series, a zero in a denominator and a rule
  without a meaning are faults of a piece of the text.  The same operation on this piece alone
  fails with the same fault, which then covers the whole of it, and a literal that is out of
  range stands where its fault says (`operations_localise`).

  Each such fault is raised by a part of the parse tree, and what the part covers is, alone,
  that part again.
-/
import MetricFormula.Proofs.Interpretation.Origin
import MetricFormula.Proofs.Interpretation.Value
import MetricFormula.Proofs.Interpretation.Failure
import MetricFormula.Proofs.Nesting
import Mathlib.Control.Monad.Basic

set_option autoImplicit false

namespace MetricFormula

open MetricFormula.Grammar MetricFormula.Text

/-! ## Pieces of a text -/

/-- A text stands at a span of another one. -/
def Span.Covers (source : String) (span : Span) (text : String) : Prop :=
  ∃ before after, before ++ text ++ after = source ∧ byteLength before.toList = span.start ∧
    byteLength (before ++ text).toList = span.stop

namespace Span.Covers

variable {source text : String} {span : Span}

theorem le (h : span.Covers source text) : span.start ≤ span.stop := by
  obtain ⟨before, after, -, hstart, hstop⟩ := h
  rw [← hstart, ← hstop, String.toList_append, byteLength_append]
  exact Nat.le_add_right _ _

theorem stop_le (h : span.Covers source text) : span.stop ≤ byteLength source.toList := by
  obtain ⟨before, after, hsplit, -, hstop⟩ := h
  rw [← hstop, ← hsplit]
  simp only [String.toList_append, byteLength_append]
  exact Nat.le_add_right _ _

theorem byteLength_eq (h : span.Covers source text) :
    byteLength text.toList = span.stop - span.start := by
  obtain ⟨before, after, -, hstart, hstop⟩ := h
  rw [← hstart, ← hstop, String.toList_append, byteLength_append, Nat.add_sub_cancel_left]

end Span.Covers

/-- What stands between two places of a text. -/
theorem covers_of_reaches {source : String} {c c' : Cursor} {text : List Char}
    (h : (Cursor.ofString source).Reaches c) (hread : c.Between text c') :
    Span.Covers source ⟨c.offset, c'.offset⟩ (String.ofList text) := by
  obtain ⟨before, hbefore⟩ := h.exists_between
  have hsplit : source.toList = before ++ c.rest := hbefore.rest
  have hstart : c.offset = 0 + byteLength before := hbefore.offset
  refine ⟨String.ofList before, String.ofList c'.rest, ?_, ?_, ?_⟩
  · rw [← String.toList_inj, hsplit, hread.rest]
    simp
  · rw [String.toList_ofList, hstart, Nat.zero_add]
  · rw [hread.offset, hstart]
    simp

/-! ## Faults with a piece -/

namespace Fault

/-- The piece of the text that a fault is about. -/
def piece? : Fault → Option Span
  | unknownFunction _ span => some span
  | unboundVariable _ span => some span
  | divisionByZero span => some span
  | unsupported _ span => some span
  | _ => none

/-- The same fault about another piece. -/
def movedTo (span : Span) : Fault → Fault
  | unknownFunction name _ => unknownFunction name span
  | unboundVariable name _ => unboundVariable name span
  | divisionByZero _ => divisionByZero span
  | unsupported rule _ => unsupported rule span
  | f => f

end Fault

/-! ## The text of a part -/

namespace Interpretation

variable {maxDepth : Nat} {source text : String} {t t' : ExpressionTree}

/-- A text without a parse tree is malformed, but not for a literal. -/
theorem malformed_of_parse {e : Fault} (h : parse maxDepth source = .error e) :
    ∃ position reason, e = .malformed position reason ∧
      ∀ literal, reason ≠ .outOfRange literal := by
  rcases parse_eq_error.mp h with h | ⟨-, f, -, rfl⟩
  · unfold Nesting.check at h
    split at h
    · exact ⟨_, _, (Except.error.inj h).symm, by simp⟩
    · simp at h
  · exact ⟨_, _, rfl, by simp⟩

/-- A text that nests no deeper than one with a parse tree is not refused for its depth. -/
theorem parse_of_depth_le (h : parse maxDepth source = .ok t) (htree : tree text = .ok t')
    (hdepth : t'.phrase.depth ≤ t.phrase.depth) : parse maxDepth text = .ok t' := by
  obtain ⟨hcheck, hsource⟩ := parse_eq_ok.mp h
  obtain ⟨ts, hcut, hphrase⟩ := tree_sound hsource
  obtain ⟨ts', hcut', hphrase'⟩ := tree_sound htree
  have hlimit := (Nesting.check_eq_ok_iff hcut hphrase).mp hcheck
  refine parse_eq_ok.mpr ⟨(Nesting.check_eq_ok_iff hcut' hphrase').mpr ?_, htree⟩
  omega

/-- Every part of a parse tree is read somewhere in the text. -/
theorem readFrom_of_parse (h : parse maxDepth source = .ok t) :
    ∀ p ∈ t.parts, p.ReadFrom (Cursor.ofString source) := by
  obtain ⟨_, hread, _⟩ := tree_at (parse_eq_ok.mp h).2
  exact fun p hp => (hread.parts p hp).of_reaches Cursor.Reaches.refl.afterGap

/-- A factor of a text, in the text and alone. -/
theorem exists_factor_alone {x : FactorTree} (h : parse maxDepth source = .ok t)
    (hx : .factor x ∈ t.parts) :
    ∃ c c' text span span' y, FactorAt c x c' ∧ Span.Covers source ⟨c.offset, c'.offset⟩ text ∧
      parse maxDepth text = .ok (.mk span (.mk span' y []) []) ∧ y.phrase = x.phrase ∧
      FactorAt ⟨text.toList, 0⟩ y ⟨[], c'.offset - c.offset⟩ := by
  obtain ⟨c, c', hreach, hread⟩ := readFrom_of_parse h _ hx
  obtain ⟨text, span, span', y, hbetween, htree, hphrase, hy⟩ := FactorAt.alone hread
  have hcovers := covers_of_reaches hreach hbetween
  refine ⟨c, c', String.ofList text, span, span', y, hread, hcovers, ?_, hphrase, ?_⟩
  · refine parse_of_depth_le h htree (Nat.le_trans (Nat.le_of_eq ?_) (t.depth_parts _ hx))
    simp only [ExpressionTree.phrase, TermTree.phrase, Part.phrase, hphrase]
    rfl
  · rw [← hcovers.byteLength_eq, String.toList_ofList]
    exact hy

/-- A call, in the text and alone. -/
theorem exists_call_alone {span : Span} {name : Lexeme} {first : ExpressionTree}
    {others : List ExpressionTree} (h : parse maxDepth source = .ok t)
    (hmem : .factor (.call span name first others) ∈ t.parts) :
    ∃ text span' span'' l first' others', span.Covers source text ∧
      parse maxDepth text = .ok (.mk span' (.mk span''
        (.call ⟨0, span.stop - span.start⟩ l first' others') []) []) ∧
      l.text = name.text ∧ first'.phrase = first.phrase ∧
      ExpressionTree.phrases others' = ExpressionTree.phrases others := by
  obtain ⟨c, c', text, span', span'', y, hread, hcovers, hparse, hphrase, hy⟩ :=
    exists_factor_alone h hmem
  obtain ⟨l, first', others', rfl, hname, hfirst, hothers⟩ := hy.of_call hphrase
  obtain rfl : span = ⟨c.offset, c'.offset⟩ := by
    cases hread
    rfl
  exact ⟨text, span', span'', l, first', others', hcovers, hparse, String.toList_inj.mp hname,
    hfirst, hothers⟩

/-- A term with operators in it, in the text and alone. -/
theorem exists_term_alone {span : Span} {first : FactorTree} {steps : List TermStep}
    (h : parse maxDepth source = .ok t) (hmem : .term (.mk span first steps) ∈ t.parts)
    (hsteps : steps ≠ []) :
    ∃ text span' u, span.Covers source text ∧ parse maxDepth text = .ok (.mk span' u []) ∧
      u.phrase = TermTree.phrase (.mk span first steps) ∧
      TermAt ⟨text.toList, 0⟩ u ⟨[], span.stop - span.start⟩ := by
  obtain ⟨step, steps, rfl⟩ := List.exists_cons_of_ne_nil hsteps
  obtain ⟨c, c', hreach, hread⟩ := readFrom_of_parse h _ hmem
  have hread : TermAt c _ c' := hread
  obtain ⟨text, span', u, hbetween, htree, hphrase, hu⟩ := hread.alone
  have hcovers := covers_of_reaches hreach hbetween
  obtain rfl : span = ⟨c.offset, c'.offset⟩ := hread.span_eq
  refine ⟨String.ofList text, span', u, hcovers, ?_, hphrase, ?_⟩
  · refine parse_of_depth_le h htree (Nat.le_trans (Nat.le_of_eq ?_) (t.depth_parts _ hmem))
    simp only [ExpressionTree.phrase, Part.phrase, hphrase]
    rfl
  · rw [← hcovers.byteLength_eq, String.toList_ofList]
    exact hu

/-- The name of a variable, in the text and alone. -/
theorem exists_name_alone {name : String} {place span : Span} (h : parse maxDepth source = .ok t)
    (hread : Part.ReadFrom (Cursor.ofString source) (.factor (.reference place ⟨name, span⟩))) :
    span.Covers source name ∧
      ∃ span' span'' place', parse maxDepth name = .ok (.mk span'
        (.mk span'' (.reference place' ⟨name, ⟨0, span.stop - span.start⟩⟩) []) []) := by
  obtain ⟨c, _, hreach, hread⟩ := hread
  cases hread with
  | @reference _ d _ htoken hspan =>
      have hspan : span = ⟨c.offset, d.offset⟩ := hspan
      have hcovers := covers_of_reaches hreach htoken.between
      rw [Token.text, String.ofList_toList, ← hspan] at hcovers
      obtain ⟨span', span'', place', htree⟩ := htoken.alone
      rw [String.ofList_toList, hcovers.byteLength_eq] at htree
      exact ⟨hcovers, span', span'', place', parse_of_depth_le h htree (Nat.zero_le _)⟩

/-! ## Literals out of range -/

/-- A literal that is out of range stands where its fault says, and is out of range alone. -/
theorem literal_localised {literal : Lexeme} {e : Fault} (h : parse maxDepth source = .ok t)
    (hmem : .factor (.constant literal) ∈ t.parts)
    (he : literalValue literal.text literal.span = .error e) :
    ∃ span span' span'', e = .malformed literal.span.start (.outOfRange literal.text) ∧
      literal.span.Covers source literal.text ∧
      parse maxDepth literal.text =
        .ok (.mk span (.mk span' (.constant ⟨literal.text, span''⟩) []) []) ∧
      literalValue literal.text span'' = .error (.malformed 0 (.outOfRange literal.text)) := by
  obtain ⟨c, c', text, span, span', y, hread, hcovers, hparse, hphrase, hy⟩ :=
    exists_factor_alone h hmem
  obtain ⟨rfl, htoken'⟩ := hy.of_constant hphrase
  obtain rfl : text = literal.text := by
    rw [← String.toList_inj]
    simpa [Token.text] using htoken'.between.rest
  cases hread with
  | constant htoken hspan =>
      have hnumeral : IsNumeral literal.text.toList := htoken.valid
      rw [String.ofList_toList] at hparse
      rw [literalValue_of_isNumeral hnumeral] at he
      split at he
      · simp at he
      · rename_i hinfinite
        refine ⟨span, span', _, (Except.error.inj he).symm, hspan ▸ hcovers, hparse, ?_⟩
        rw [literalValue_of_isNumeral hnumeral, if_neg hinfinite]

/-- Where literals are judged by their numbers, one that is out of range is so alone. -/
theorem check_literal {span span' : Span} {literal : Lexeme} {e : Fault} {p : Policy}
    (hparse : parse p.maxDepth source = .ok (.mk span (.mk span' (.constant literal) []) []))
    (he : literalValue literal.text literal.span = .error e) : p.check source = .error e := by
  refine run_eq_error.mpr (Or.inr ⟨_, hparse, walk_factor_eq_error ?_⟩)
  refine Handled.runFrom_map_eq_error.mpr (Handled.runFrom_map_eq_error.mpr ?_)
  exact he

/-! ## Interpretations that judge construct by construct -/

/-- A fault is raised by a call, after its arguments, or by a literal. -/
theorem Judges.raises_cases {σ ε τ φ : Type} {I : Interpretation σ ε τ φ}
    {fault? : Construct → Option Fault} (hI : I.Judges fault?) {part : Part} {e : Fault}
    (h : I.Raises part e) :
    (∃ span name first others, part = .factor (.call span name first others) ∧
      fault? (.call name.text span) = some e ∧
      (∃ x s s', (I.walk first).runFrom s = (.ok x, s')) ∧
      ∃ xs s s', (I.walkArguments others).runFrom s = (.ok xs, s')) ∨
    ∃ literal, part = .factor (.constant literal) ∧
      fault? (.literal literal.text literal.span) = some e := by
  cases h with
  | expression _ _ h => simpa using (hI.expression _ _ _ _ _).mp h
  | term _ _ h => simpa using (hI.term _ _ _ _ _).mp h
  | enterCall h => simpa using (hI.enterCall _ _ _ _).mp h
  | call hfirst hothers h =>
      exact Or.inl ⟨_, _, _, _, rfl, (hI.call _ _ _ _ _).mp h, ⟨_, _, _, hfirst⟩,
        ⟨_, _, _, hothers⟩⟩
  | constant h => exact Or.inr ⟨_, rfl, (hI.constant _ _ _ _).mp h⟩
  | group _ h => simpa using (hI.group _ _ _ _).mp h

end Interpretation

/-! ## Validation -/

theorem Handled.Answers.exists_run {σ α : Type} {x : Handled σ α} {C : Prop} {a : α}
    (h : x.Answers C a) (hC : C) (s : σ) : ∃ s', x.runFrom s = (.ok a, s') :=
  ⟨_, Prod.ext ((h s a).mpr ⟨hC, rfl⟩) rfl⟩

theorem Handled.Answers.of_run {σ α : Type} {x : Handled σ α} {C : Prop} {a b : α} {s s' : σ}
    (h : x.Answers C a) (hrun : x.runFrom s = (.ok b, s')) : C :=
  ((h s b).mp (congrArg Prod.fst hrun)).1

namespace Validation

open Handled

variable {functions : NameSet} {maxDepth : Nat} {source : String} {t : ExpressionTree}

/-- A call is refused after its arguments have been accepted. -/
theorem walkFactor_call_eq_error {span : Span} {name : Lexeme} {first : ExpressionTree}
    {others : List ExpressionTree} (hname : name.text ∉ functions)
    (hfirst : Admits functions first.phrase.literals first.phrase.calls)
    (hothers : Admits functions (ExpressionPhrase.argumentLiterals (ExpressionTree.phrases others))
      (ExpressionPhrase.argumentCalls (ExpressionTree.phrases others))) (s : NameSet) :
    (((Interpretation.validation functions).walkFactor
      (.call span name first others)).runFrom s).1 = .error (.unknownFunction name.text span) := by
  obtain ⟨s', hfirst⟩ := (walk_answers first).exists_run hfirst s
  obtain ⟨s'', hothers⟩ := (walkArguments_answers others).exists_run hothers s'
  refine runFrom_bind_eq_error.mpr (Or.inr ⟨(), s, rfl, ?_⟩)
  refine runFrom_bind_eq_error.mpr (Or.inr ⟨_, s', hfirst, ?_⟩)
  refine runFrom_bind_eq_error.mpr (Or.inr ⟨_, s'', hothers, ?_⟩)
  refine runFrom_map_eq_error.mpr (((validation_judges functions).call _ _ _ _ _).mpr ?_)
  simp [Construct.fault?, NameSet.contains, hname]

end Validation

/-! ## Evaluation -/

namespace Evaluation

open Interpretation

variable {σ : Type} [Series σ] {bindings : Bindings σ}

/-- If an operand is a variable, it is one of some parts of a tree. -/
def IsAmong (parts : List Part) (x : Operand σ) : Prop :=
  ∀ name span, x = .variable name span →
    ∃ place, .factor (.reference place ⟨name, span⟩) ∈ parts

omit [Series σ] in
theorem IsAmong.mono {parts parts' : List Part} {x : Operand σ} (h : IsAmong parts x)
    (hsub : ∀ p ∈ parts, p ∈ parts') : IsAmong parts' x := by
  intro name span hx
  obtain ⟨place, hmem⟩ := h name span hx
  exact ⟨place, hsub _ hmem⟩

theorem walkFactor_isAmong {x : FactorTree} {a : Operand σ}
    (h : ((evaluation bindings).walkFactor x).outcome = .ok a) : IsAmong x.parts a := by
  rintro name span rfl
  cases x with
  | reference place l =>
      obtain ⟨rfl, rfl⟩ := Operand.variable.inj (Except.ok.inj h)
      exact ⟨place, List.mem_singleton_self _⟩
  | call _ _ _ _ =>
      obtain ⟨_, h, -⟩ := Handled.outcome_bind_eq_ok.mp h
      cases h
  | constant literal =>
      obtain ⟨_, -, h⟩ := Handled.outcome_bind_eq_ok.mp h
      cases h
  | group inner =>
      obtain ⟨_, -, h⟩ := Handled.outcome_bind_eq_ok.mp h
      cases h

theorem walkTermSteps_isAmong {steps : List TermStep}
    {as : List (MultiplicativeOperator × Operand σ)}
    (h : ((evaluation bindings).walkTermSteps steps).outcome = .ok as) :
    ∀ a ∈ as, IsAmong (TermTree.stepParts steps) a.2 := by
  induction steps generalizing as with
  | nil =>
      obtain rfl := Except.ok.inj h
      simp
  | cons step steps ih =>
      obtain ⟨operator, place, factor⟩ := step
      obtain ⟨a, bs, ha, hbs, rfl⟩ := walkTermSteps_cons_eq_ok.mp h
      refine List.forall_mem_cons.mpr ⟨?_, fun b hb => ?_⟩
      · exact (walkFactor_isAmong ha).mono fun p hp => List.mem_append_left _ hp
      · exact (ih hbs b hb).mono fun p hp => List.mem_append_right _ hp

/-- The variables that a term joins stand in it. -/
theorem isAmong_of_term {span : Span} {first : FactorTree} {steps : List TermStep} {a : Operand σ}
    {as : List (MultiplicativeOperator × Operand σ)}
    (hfirst : ((evaluation bindings).walkFactor first).outcome = .ok a)
    (hsteps : ((evaluation bindings).walkTermSteps steps).outcome = .ok as) {x : Operand σ}
    (hx : x ∈ multiplied a as ∨ x ∈ divided as) :
    IsAmong (TermTree.mk span first steps).parts x := by
  have hrest : ∀ s ∈ as, IsAmong (TermTree.mk span first steps).parts s.2 := fun s hs =>
    (walkTermSteps_isAmong hsteps s hs).mono fun p hp =>
      List.mem_cons_of_mem _ (List.mem_append_right _ hp)
  rcases hx with hx | hx
  · refine forall_multiplied ((walkFactor_isAmong hfirst).mono fun p hp => ?_) hrest x hx
    exact List.mem_cons_of_mem _ (List.mem_append_left _ hp)
  · exact forall_divided hrest x hx

/-- A fault is raised by a call, by a literal, by a term that divides by zero, or by a term with
a variable that has no series; or series do not fit together. -/
theorem raises_cases {part : Part} {e : Fault} (h : (evaluation bindings).Raises part e) :
    (∃ span name first others, part = .factor (.call span name first others) ∧
      e = .unsupported .call span) ∨
    (∃ literal, part = .factor (.constant literal) ∧
      literalValue literal.text literal.span = .error e) ∨
    (∃ span first steps, part = .term (.mk span first steps) ∧ e = .divisionByZero span ∧
      (TermTree.phrase (.mk span first steps)).product.DividesByZero bindings) ∨
    (∃ t place name span, part = .term t ∧ .factor (.reference place ⟨name, span⟩) ∈ t.parts ∧
      bindings name = none ∧ e = .unboundVariable name span) ∨
    ∃ cause, e = .series cause := by
  cases h with
  | expression _ _ h => exact Or.inr (Or.inr (Or.inr (Or.inr (series_of_difference h))))
  | enterCall h => exact Or.inl ⟨_, _, _, _, rfl, (Except.error.inj h).symm⟩
  | call _ _ h => exact Or.inl ⟨_, _, _, _, rfl, (Except.error.inj h).symm⟩
  | @constant literal _ _ h =>
      refine Or.inr (Or.inl ⟨literal, rfl, ?_⟩)
      change (literalValue literal.text literal.span).map _ = .error e at h
      cases hvalue : literalValue literal.text literal.span with
      | error e' => simpa [hvalue, Except.map] using h
      | ok x => simp [hvalue, Except.map] at h
  | group _ h => cases h
  | @term span first steps a as _ _ _ _ hfirst hsteps h =>
      have hfirst : ((evaluation bindings).walkFactor first).outcome = .ok a :=
        congrArg Prod.fst hfirst
      have hsteps : ((evaluation bindings).walkTermSteps steps).outcome = .ok as :=
        congrArg Prod.fst hsteps
      have h : quotient bindings (multiplied a as) (divided as) span = .error e := h
      rcases quotient_eq_error h with ⟨name, place, hmem, hbound, rfl⟩ | hseries | rfl
      · obtain ⟨place', hpart⟩ := isAmong_of_term hfirst hsteps hmem name place rfl
        exact Or.inr (Or.inr (Or.inr (Or.inl ⟨_, place', name, place, rfl, hpart, hbound, rfl⟩)))
      · exact Or.inr (Or.inr (Or.inr (Or.inr hseries)))
      · have hzero := term_divisionByZero_iff.mp ⟨a, as, hfirst, hsteps, h⟩
        exact Or.inr (Or.inr (Or.inl ⟨span, first, steps, rfl, rfl, hzero.2⟩))

/-- Only a term with operators divides by zero. -/
theorem ne_nil_of_dividesByZero {span : Span} {first : FactorTree} {steps : List TermStep}
    (h : (TermTree.phrase (.mk span first steps)).product.DividesByZero bindings) :
    steps ≠ [] := by
  rintro rfl
  obtain ⟨xs, ys, -, hys, hne, -⟩ := h
  exact hne (Option.some.inj hys).symm

/-- A term that divides by zero fails. -/
theorem walkTerm_eq_divisionByZero {span : Span} {first : FactorTree} {steps : List TermStep}
    (h : (TermTree.phrase (.mk span first steps)).product.DividesByZero bindings) :
    ((evaluation bindings).walkTerm (.mk span first steps)).outcome =
      .error (.divisionByZero span) := by
  obtain ⟨a, as, hfirst, hsteps, hquotient⟩ := term_divisionByZero_iff.mpr ⟨rfl, h⟩
  refine Handled.runFrom_bind_eq_error.mpr (Or.inr ⟨a, (), Prod.ext hfirst rfl, ?_⟩)
  exact Handled.runFrom_bind_eq_error.mpr (Or.inr ⟨as, (), Prod.ext hsteps rfl, hquotient⟩)

/-- A variable without a series, alone. -/
theorem walkTerm_eq_unbound {name : String} {span span' place : Span}
    (hbound : bindings name = none) :
    ((evaluation bindings).walkTerm (.mk span (.reference place ⟨name, span'⟩) [])).outcome =
      .error (.unboundVariable name span') := by
  change quotient bindings [.variable name span'] [] span = _
  simp [quotient, resolveAll, resolve, hbound, bind, Except.bind]

end Evaluation

/-! ## Texts -/

namespace Policy

/-- How a fault of an operation on a text shows what it is about. -/
inductive Localised {α : Type} (p : Policy) (operation : String → Except Fault α)
    (source : String) : Fault → Prop
  | literal {span : Span} {literal : String} :
      span.Covers source literal →
      p.check literal = .error (.malformed 0 (.outOfRange literal)) →
      Localised p operation source (.malformed span.start (.outOfRange literal))
  | piece {f : Fault} {span : Span} {text : String} :
      f.piece? = some span → span.Covers source text →
      operation text = .error (f.movedTo ⟨0, span.stop - span.start⟩) →
      (∀ name, f = .unboundVariable name span → text = name) → Localised p operation source f
  | series {cause : LengthMismatch} : Localised p operation source (.series cause)

/-- The faults of an operation on a text that has a parse tree show what they are about. -/
def LocalisesParsed {α : Type} (p : Policy) (operation : String → Except Fault α)
    (source : String) : Prop :=
  ∀ e, operation source = .error e → Interpretation.parse p.maxDepth source = .error e ∨
    ∃ t, Interpretation.parse p.maxDepth source = .ok t ∧ p.Localised operation source e

variable {p : Policy} {source : String} {t : ExpressionTree} {e : Fault}

open Interpretation

/-- A literal that is out of range. -/
theorem localised_of_literal {α : Type} {operation : String → Except Fault α} {literal : Lexeme}
    (h : parse p.maxDepth source = .ok t) (hmem : .factor (.constant literal) ∈ t.parts)
    (he : literalValue literal.text literal.span = .error e) : p.Localised operation source e := by
  obtain ⟨span, span', span'', rfl, hcovers, hparse, hvalue⟩ := literal_localised h hmem he
  exact .literal hcovers (check_literal hparse hvalue)

theorem check_localisesParsed : p.LocalisesParsed p.check source := by
  intro e h
  refine (run_eq_error.mp h).imp_right ?_
  rintro ⟨t, ht, h⟩
  refine ⟨t, ht, ?_⟩
  obtain ⟨part, hmem, hraises⟩ := walk_raises h
  rcases acceptance_judges.raises_cases hraises with
    ⟨_, _, _, _, rfl, hfault, -⟩ | ⟨literal, rfl, hfault⟩
  · simp [Construct.fault?] at hfault
  · exact localised_of_literal ht hmem (literalValue_eq_error_iff.mpr hfault)

/-- Validation fails as its walk does. -/
theorem validate_eq_error : p.validate source = .error e ↔
    (((validation p.functions).run p.maxDepth source).runFrom .empty).1 = .error e := by
  unfold validate
  rcases ((validation p.functions).run p.maxDepth source).runFrom .empty with ⟨e' | ast, names⟩
  · simp
  · simp

theorem validate_localisesParsed : p.LocalisesParsed p.validate source := by
  intro e h
  refine (run_eq_error.mp (validate_eq_error.mp h)).imp_right ?_
  rintro ⟨t, ht, h⟩
  refine ⟨t, ht, ?_⟩
  obtain ⟨part, hmem, hraises⟩ := walk_raises h
  rcases (validation_judges p.functions).raises_cases hraises with
    ⟨span, name, first, others, rfl, hfault, ⟨_, _, _, hfirst⟩, _, _, _, hothers⟩ |
      ⟨literal, rfl, hfault⟩
  · obtain ⟨hname, rfl⟩ : name.text ∉ p.functions ∧ e = .unknownFunction name.text span := by
      simpa [Construct.fault?, NameSet.contains, eq_comm] using hfault
    obtain ⟨text, _, _, l, first', others', hcovers, hparse, hl, hfirst', hothers'⟩ :=
      exists_call_alone ht hmem
    have hfirst := (Validation.walk_answers first).of_run hfirst
    have hothers := (Validation.walkArguments_answers others).of_run hothers
    rw [← hfirst'] at hfirst
    rw [← hothers'] at hothers
    refine .piece rfl hcovers ?_ (by simp)
    refine validate_eq_error.mpr (run_eq_error.mpr (Or.inr ⟨_, hparse, walk_factor_eq_error ?_⟩))
    rw [Fault.movedTo, ← hl]
    exact Validation.walkFactor_call_eq_error (by rwa [hl]) hfirst hothers .empty
  · exact localised_of_literal ht hmem (literalValue_eq_error_iff.mpr hfault)

theorem evaluate_localisesParsed {σ : Type} [Series σ] (bindings : Bindings σ) :
    p.LocalisesParsed (p.evaluate · bindings) source := by
  intro e h
  refine (run_eq_error.mp h).imp_right ?_
  rintro ⟨t, ht, h⟩
  refine ⟨t, ht, ?_⟩
  obtain ⟨part, hmem, hraises⟩ := walk_raises h
  rcases Evaluation.raises_cases hraises with ⟨span, name, first, others, rfl, rfl⟩ |
    ⟨literal, rfl, he⟩ | ⟨span, first, steps, rfl, rfl, hzero⟩ |
    ⟨u, place, name, span, rfl, hname, hbound, rfl⟩ | ⟨cause, rfl⟩
  · obtain ⟨text, _, _, l, first', others', hcovers, hparse, -⟩ := exists_call_alone ht hmem
    refine .piece rfl hcovers ?_ (by simp)
    refine run_eq_error.mpr (Or.inr ⟨_, hparse, walk_factor_eq_error ?_⟩)
    exact Handled.runFrom_bind_eq_error.mpr (Or.inl rfl)
  · exact localised_of_literal ht hmem he
  · obtain ⟨text, _, ⟨span', first', steps'⟩, hcovers, hparse, hphrase, hu⟩ :=
      exists_term_alone ht hmem (Evaluation.ne_nil_of_dividesByZero hzero)
    rw [← hphrase] at hzero
    obtain rfl : span' = ⟨0, span.stop - span.start⟩ := hu.span_eq
    refine .piece rfl hcovers ?_ (by simp)
    refine run_eq_error.mpr (Or.inr ⟨_, hparse, walk_term_eq_error ?_⟩)
    exact Evaluation.walkTerm_eq_divisionByZero hzero
  · obtain ⟨d, d', hreach, hread⟩ := readFrom_of_parse ht _ hmem
    have hread : TermAt d u d' := hread
    obtain ⟨hcovers, _, _, _, hparse⟩ :=
      exists_name_alone ht ((hread.parts _ hname).of_reaches hreach)
    refine .piece rfl hcovers ?_ (by simp)
    refine run_eq_error.mpr (Or.inr ⟨_, hparse, walk_term_eq_error ?_⟩)
    exact Evaluation.walkTerm_eq_unbound hbound
  · exact .series

/-- The faults of an operation on a text show what they are about.  One about a piece of the text
is the fault of that piece alone, and the piece of a variable is its name.  A literal that is out
of range stands where the fault says, and is out of range alone. -/
structure Localises {α : Type} (p : Policy) (operation : String → Except Fault α)
    (source : String) : Prop where
  piece : ∀ f span, operation source = .error f → f.piece? = some span →
    span.start ≤ span.stop ∧ span.stop ≤ byteLength source.toList ∧
      ∃ text, span.Covers source text ∧
        operation text = .error (f.movedTo ⟨0, span.stop - span.start⟩) ∧
        ∀ name, f = .unboundVariable name span → text = name
  literal : ∀ position literal,
    operation source = .error (.malformed position (.outOfRange literal)) →
    ∃ before after, before ++ literal ++ after = source ∧ byteLength before.toList = position ∧
      p.check literal = .error (.malformed 0 (.outOfRange literal))

theorem LocalisesParsed.localises {α : Type} {operation : String → Except Fault α}
    (h : p.LocalisesParsed operation source) : p.Localises operation source where
  piece f span hf hpiece := by
    rcases h f hf with hparse | ⟨t, -, hlocalised⟩
    · obtain ⟨position, reason, rfl, -⟩ := malformed_of_parse hparse
      simp [Fault.piece?] at hpiece
    cases hlocalised with
    | literal _ _ => simp [Fault.piece?] at hpiece
    | series => simp [Fault.piece?] at hpiece
    | @piece _ span' text hspan hcovers halone hname =>
        obtain rfl : span' = span := Option.some.inj (hspan.symm.trans hpiece)
        exact ⟨hcovers.le, hcovers.stop_le, text, hcovers, halone, hname⟩
  literal position literal hf := by
    rcases h _ hf with hparse | ⟨t, -, hlocalised⟩
    · obtain ⟨_, reason, heq, hreason⟩ := malformed_of_parse hparse
      exact absurd (Fault.malformed.inj heq).2.symm (hreason literal)
    cases hlocalised with
    | literal hcovers hcheck =>
        obtain ⟨before, after, hsplit, hstart, -⟩ := hcovers
        exact ⟨before, after, hsplit, hstart, hcheck⟩
    | piece hspan _ _ _ => simp [Fault.piece?] at hspan

end Policy

/-- The faults of checking, of validating and of evaluating a text show what they are about. -/
theorem operations_localise (p : Policy) (source : String) :
    p.Localises p.check source ∧ p.Localises p.validate source ∧
      ∀ {σ : Type} [Series σ] (bindings : Bindings σ),
        p.Localises (p.evaluate · bindings) source :=
  ⟨Policy.check_localisesParsed.localises, Policy.validate_localisesParsed.localises,
    fun bindings => (Policy.evaluate_localisesParsed bindings).localises⟩

/-- A text with a zero in a denominator in parentheses, a call and a literal out of range. -/
def threeFaults : String := "a - (x  / (y -1)\t ) * f (z ) + 1e999"

/-- One for every variable of `threeFaults` but one. -/
def threeFaultsBindings : Bindings Binary64
  | "a" => some Binary64.one
  | "x" => some Binary64.one
  | "y" => some Binary64.one
  | _ => none

theorem operations_localise_threeFaults :
    (Policy.standard.evaluate threeFaults threeFaultsBindings = .error (.divisionByZero ⟨5, 16⟩) ∧
      ∃ text, Span.Covers threeFaults ⟨5, 16⟩ text ∧
        Policy.standard.evaluate text threeFaultsBindings = .error (.divisionByZero ⟨0, 11⟩)) ∧
    (Policy.standard.validate threeFaults = .error (.unknownFunction "f" ⟨22, 28⟩) ∧
      ∃ text, Span.Covers threeFaults ⟨22, 28⟩ text ∧
        Policy.standard.validate text = .error (.unknownFunction "f" ⟨0, 6⟩)) ∧
    Policy.standard.check threeFaults = .error (.malformed 31 (.outOfRange "1e999")) ∧
      Policy.standard.check "1e999" = .error (.malformed 0 (.outOfRange "1e999")) := by
  have hevaluate : Policy.standard.evaluate threeFaults threeFaultsBindings =
      .error (.divisionByZero ⟨5, 16⟩) := by decide +kernel
  have hvalidate : (Policy.standard.validate threeFaults).map Formula.source =
      .error (.unknownFunction "f" ⟨22, 28⟩) := by decide +kernel
  have hcheck : Policy.standard.check threeFaults =
      .error (.malformed 31 (.outOfRange "1e999")) := by decide +kernel
  obtain ⟨hchecks, hvalidates, hevaluates⟩ := operations_localise .standard threeFaults
  obtain ⟨-, -, quotient, hquotient, halone, -⟩ :=
    (hevaluates threeFaultsBindings).piece _ _ hevaluate rfl
  obtain ⟨-, -, call, hcall, halone', -⟩ :=
    hvalidates.piece _ _ (map_eq_error.mp hvalidate) rfl
  obtain ⟨_, _, -, -, hliteral⟩ := hchecks.literal _ _ hcheck
  exact ⟨⟨hevaluate, quotient, hquotient, halone⟩,
    ⟨map_eq_error.mp hvalidate, call, hcall, halone'⟩, hcheck, hliteral⟩

end MetricFormula
