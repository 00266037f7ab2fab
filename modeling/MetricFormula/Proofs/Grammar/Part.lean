/-
  Proofs/Grammar/Part: the parts of a parse tree, and the text of a part alone.

  The parts of a tree are the expressions, the terms and the factors in it, itself included.
  Each of them is read somewhere in the text (`ExpressionAt.parts`).  The constructs of a tree,
  its literals and its calls, are found among its parts (`ExpressionTree.mem_constructs_iff`).

  What a part covers is a sentence of the grammar by itself.  Its parse tree is the phrase of
  the part again, and covers the whole of it: a part that ends with the name of a variable has
  read the blanks after it, and any other part ends with a word (`TermAt.alone`,
  `FactorAt.alone`).
-/
import MetricFormula.Proofs.Grammar.Construct
import MetricFormula.Proofs.Grammar.Sound
import MetricFormula.Proofs.Grammar.Complete
import MetricFormula.Proofs.Grammar.Visible
import Mathlib.Data.List.TakeWhile

set_option autoImplicit false

namespace MetricFormula.Grammar

open Text

variable {c c' d e : Cursor} {t : Token} {text read : List Char} {ts : List Token}

/-! ## Parts -/

/-- A part of a parse tree. -/
inductive Part where
  | expression (t : ExpressionTree)
  | term (t : TermTree)
  | factor (x : FactorTree)

mutual

/-- An expression and the parts inside it. -/
def ExpressionTree.parts : ExpressionTree → List Part
  | .mk span first steps =>
      .expression (.mk span first steps) :: (first.parts ++ ExpressionTree.stepParts steps)

/-- The parts of steps. -/
def ExpressionTree.stepParts : List ExpressionStep → List Part
  | [] => []
  | .mk _ _ term :: steps => term.parts ++ ExpressionTree.stepParts steps

/-- A term and the parts inside it. -/
def TermTree.parts : TermTree → List Part
  | .mk span first steps =>
      .term (.mk span first steps) :: (first.parts ++ TermTree.stepParts steps)

/-- The parts of steps. -/
def TermTree.stepParts : List TermStep → List Part
  | [] => []
  | .mk _ _ factor :: steps => factor.parts ++ TermTree.stepParts steps

/-- A factor and the parts inside it. -/
def FactorTree.parts : FactorTree → List Part
  | .call span name first others =>
      .factor (.call span name first others) ::
        (first.parts ++ ExpressionTree.argumentParts others)
  | .reference span name => [.factor (.reference span name)]
  | .constant literal => [.factor (.constant literal)]
  | .group inner => .factor (.group inner) :: inner.parts

/-- The parts of arguments. -/
def ExpressionTree.argumentParts : List ExpressionTree → List Part
  | [] => []
  | e :: es => e.parts ++ ExpressionTree.argumentParts es

end

namespace Part

/-- The phrase that a part is alone. -/
def phrase : Part → ExpressionPhrase
  | expression t => t.phrase
  | term t => .mk t.phrase []
  | factor x => .mk (.mk x.phrase []) []

theorem depth_term (t : TermTree) : (term t).phrase.depth = t.phrase.depth :=
  Nat.max_eq_left (Nat.zero_le _)

theorem depth_factor (x : FactorTree) : (factor x).phrase.depth = x.phrase.depth := by
  simp [phrase, ExpressionPhrase.depth, ExpressionPhrase.stepsDepth, TermPhrase.depth,
    TermPhrase.stepsDepth]

/-- The stretch of the text that a part is read from. -/
def At : Part → Cursor → Cursor → Prop
  | expression t, c, c' => ExpressionAt c t c'
  | term t, c, c' => TermAt c t c'
  | factor x, c, c' => FactorAt c x c'

end Part

/-! ## The constructs among the parts -/

/-- The construct that a part is, if it is one. -/
def Part.construct? : Part → Option Construct
  | .factor (.call span name _ _) => some (.call name.text span)
  | .factor (.constant literal) => some (.literal literal.text literal.span)
  | _ => none

/-- A part that is a literal. -/
theorem Part.construct?_eq_literal {p : Part} {text : String} {span : Span}
    (h : p.construct? = some (.literal text span)) : p = .factor (.constant ⟨text, span⟩) := by
  unfold construct? at h
  split at h
  · simp at h
  · obtain ⟨rfl, rfl⟩ := Construct.literal.inj (Option.some.inj h)
    rfl
  · simp at h

/-- The constructs among some parts. -/
theorem exists_construct_append {ps qs : List Part} {cs ds : List Construct} {c : Construct}
    (hps : c ∈ cs ↔ ∃ p ∈ ps, p.construct? = some c)
    (hqs : c ∈ ds ↔ ∃ p ∈ qs, p.construct? = some c) :
    c ∈ cs ++ ds ↔ ∃ p ∈ ps ++ qs, p.construct? = some c := by
  simp only [List.mem_append, or_and_right, exists_or, hps, hqs]

mutual

/-- The constructs of an expression are those among its parts. -/
theorem ExpressionTree.mem_constructs_iff {c : Construct} : ∀ {t : ExpressionTree},
    c ∈ t.constructs ↔ ∃ p ∈ t.parts, p.construct? = some c
  | .mk _ _ _ => by
      rw [ExpressionTree.constructs, ExpressionTree.parts,
        exists_construct_append TermTree.mem_constructs_iff ExpressionTree.mem_stepConstructs_iff]
      simp [Part.construct?]

theorem ExpressionTree.mem_stepConstructs_iff {c : Construct} : ∀ {steps : List ExpressionStep},
    c ∈ ExpressionTree.stepConstructs steps ↔
      ∃ p ∈ ExpressionTree.stepParts steps, p.construct? = some c
  | [] => by simp [ExpressionTree.stepConstructs, ExpressionTree.stepParts]
  | .mk _ _ _ :: _ => by
      rw [ExpressionTree.stepConstructs, ExpressionTree.stepParts]
      exact exists_construct_append TermTree.mem_constructs_iff
        ExpressionTree.mem_stepConstructs_iff

theorem TermTree.mem_constructs_iff {c : Construct} : ∀ {t : TermTree},
    c ∈ t.constructs ↔ ∃ p ∈ t.parts, p.construct? = some c
  | .mk _ _ _ => by
      rw [TermTree.constructs, TermTree.parts,
        exists_construct_append FactorTree.mem_constructs_iff TermTree.mem_stepConstructs_iff]
      simp [Part.construct?]

theorem TermTree.mem_stepConstructs_iff {c : Construct} : ∀ {steps : List TermStep},
    c ∈ TermTree.stepConstructs steps ↔
      ∃ p ∈ TermTree.stepParts steps, p.construct? = some c
  | [] => by simp [TermTree.stepConstructs, TermTree.stepParts]
  | .mk _ _ _ :: _ => by
      rw [TermTree.stepConstructs, TermTree.stepParts]
      exact exists_construct_append FactorTree.mem_constructs_iff
        TermTree.mem_stepConstructs_iff

theorem FactorTree.mem_constructs_iff {c : Construct} : ∀ {x : FactorTree},
    c ∈ x.constructs ↔ ∃ p ∈ x.parts, p.construct? = some c
  | .call span name first others => by
      have hinside : c ∈ first.constructs ++ ExpressionTree.argumentConstructs others ↔
          ∃ p ∈ first.parts ++ ExpressionTree.argumentParts others, p.construct? = some c :=
        exists_construct_append ExpressionTree.mem_constructs_iff
          ExpressionTree.mem_argumentConstructs_iff
      rw [FactorTree.constructs, FactorTree.parts, ← List.append_assoc, List.mem_append, hinside]
      simp [Part.construct?, or_comm, eq_comm]
  | .reference _ _ => by simp [FactorTree.constructs, FactorTree.parts, Part.construct?]
  | .constant _ => by simp [FactorTree.constructs, FactorTree.parts, Part.construct?, eq_comm]
  | .group _ => by
      rw [FactorTree.constructs, FactorTree.parts, ExpressionTree.mem_constructs_iff]
      simp [Part.construct?]

theorem ExpressionTree.mem_argumentConstructs_iff {c : Construct} :
    ∀ {es : List ExpressionTree}, c ∈ ExpressionTree.argumentConstructs es ↔
      ∃ p ∈ ExpressionTree.argumentParts es, p.construct? = some c
  | [] => by simp [ExpressionTree.argumentConstructs, ExpressionTree.argumentParts]
  | _ :: _ => by
      rw [ExpressionTree.argumentConstructs, ExpressionTree.argumentParts]
      exact exists_construct_append ExpressionTree.mem_constructs_iff
        ExpressionTree.mem_argumentConstructs_iff

end

/-! ## The depth of a part -/

mutual

/-- A part is no deeper than the tree. -/
theorem ExpressionTree.depth_parts : ∀ {t : ExpressionTree},
    ∀ p ∈ t.parts, p.phrase.depth ≤ t.phrase.depth
  | .mk _ _ _ => by
      refine List.forall_mem_cons.mpr ⟨Nat.le_refl _, List.forall_mem_append.mpr ⟨?_, ?_⟩⟩
      · exact fun p hp => Nat.le_trans (TermTree.depth_parts p hp) (Nat.le_max_left _ _)
      · exact fun p hp => Nat.le_trans (ExpressionTree.depth_stepParts p hp) (Nat.le_max_right _ _)

theorem ExpressionTree.depth_stepParts : ∀ {steps : List ExpressionStep},
    ∀ p ∈ ExpressionTree.stepParts steps,
      p.phrase.depth ≤ ExpressionPhrase.stepsDepth (ExpressionTree.stepPhrases steps)
  | [] => by simp [ExpressionTree.stepParts]
  | .mk _ _ _ :: _ => by
      refine List.forall_mem_append.mpr ⟨?_, ?_⟩
      · exact fun p hp => Nat.le_trans (TermTree.depth_parts p hp) (Nat.le_max_left _ _)
      · exact fun p hp => Nat.le_trans (ExpressionTree.depth_stepParts p hp) (Nat.le_max_right _ _)

theorem TermTree.depth_parts : ∀ {t : TermTree}, ∀ p ∈ t.parts, p.phrase.depth ≤ t.phrase.depth
  | .mk _ _ _ => by
      refine List.forall_mem_cons.mpr
        ⟨Nat.le_of_eq (Part.depth_term _), List.forall_mem_append.mpr ⟨?_, ?_⟩⟩
      · exact fun p hp => Nat.le_trans (FactorTree.depth_parts p hp) (Nat.le_max_left _ _)
      · exact fun p hp => Nat.le_trans (TermTree.depth_stepParts p hp) (Nat.le_max_right _ _)

theorem TermTree.depth_stepParts : ∀ {steps : List TermStep},
    ∀ p ∈ TermTree.stepParts steps,
      p.phrase.depth ≤ TermPhrase.stepsDepth (TermTree.stepPhrases steps)
  | [] => by simp [TermTree.stepParts]
  | .mk _ _ _ :: _ => by
      refine List.forall_mem_append.mpr ⟨?_, ?_⟩
      · exact fun p hp => Nat.le_trans (FactorTree.depth_parts p hp) (Nat.le_max_left _ _)
      · exact fun p hp => Nat.le_trans (TermTree.depth_stepParts p hp) (Nat.le_max_right _ _)

theorem FactorTree.depth_parts : ∀ {x : FactorTree},
    ∀ p ∈ x.parts, p.phrase.depth ≤ x.phrase.depth
  | .call _ _ _ _ => by
      refine List.forall_mem_cons.mpr
        ⟨Nat.le_of_eq (Part.depth_factor _), List.forall_mem_append.mpr ⟨?_, ?_⟩⟩
      · exact fun p hp => Nat.le_succ_of_le
          (Nat.le_trans (ExpressionTree.depth_parts p hp) (Nat.le_max_left _ _))
      · exact fun p hp => Nat.le_succ_of_le
          (Nat.le_trans (ExpressionTree.depth_argumentParts p hp) (Nat.le_max_right _ _))
  | .reference _ _ => List.forall_mem_singleton.mpr (Nat.le_of_eq (Part.depth_factor _))
  | .constant _ => List.forall_mem_singleton.mpr (Nat.le_of_eq (Part.depth_factor _))
  | .group _ => by
      refine List.forall_mem_cons.mpr ⟨Nat.le_of_eq (Part.depth_factor _), ?_⟩
      exact fun p hp => Nat.le_succ_of_le (ExpressionTree.depth_parts p hp)

theorem ExpressionTree.depth_argumentParts : ∀ {es : List ExpressionTree},
    ∀ p ∈ ExpressionTree.argumentParts es,
      p.phrase.depth ≤ ExpressionPhrase.depths (ExpressionTree.phrases es)
  | [] => by simp [ExpressionTree.argumentParts]
  | _ :: _ => by
      refine List.forall_mem_append.mpr ⟨?_, ?_⟩
      · exact fun p hp => Nat.le_trans (ExpressionTree.depth_parts p hp) (Nat.le_max_left _ _)
      · exact fun p hp =>
          Nat.le_trans (ExpressionTree.depth_argumentParts p hp) (Nat.le_max_right _ _)

end

/-! ## Where a part is read -/

/-- Tokens lead from one place to another. -/
def Cursor.Reaches (c c' : Cursor) : Prop := ∃ ps, CutTo c ps c'

namespace Cursor.Reaches

theorem refl : c.Reaches c := ⟨[], .nil⟩

theorem trans (h : c.Reaches d) (h' : d.Reaches c') : c.Reaches c' := by
  obtain ⟨ps, hps⟩ := h
  obtain ⟨qs, hqs⟩ := h'
  exact ⟨_, hps.trans hqs⟩

theorem afterGap (h : c.Reaches c') : c.Reaches c'.afterGap := h.trans ⟨_, .afterGap c'⟩

theorem exists_between (h : c.Reaches c') : ∃ read, c.Between read c' := by
  obtain ⟨ps, hps⟩ := h
  obtain ⟨read, hread, _⟩ := hps.exists_cut
  exact ⟨read, hread⟩

end Cursor.Reaches

theorem TokenAt.reaches (h : TokenAt c t c') : c.Reaches c' := ⟨_, h.cutTo⟩

theorem ExpressionAt.reaches {t : ExpressionTree} (h : ExpressionAt c t c') : c.Reaches c' := by
  obtain ⟨ps, hps, _⟩ := h.stands
  exact ⟨ps, hps⟩

theorem TermAt.reaches {t : TermTree} (h : TermAt c t c') : c.Reaches c' := by
  obtain ⟨ps, hps, _⟩ := h.stands
  exact ⟨ps, hps⟩

theorem FactorAt.reaches {x : FactorTree} (h : FactorAt c x c') : c.Reaches c' := by
  obtain ⟨ps, hps, _⟩ := h.stands
  exact ⟨ps, hps⟩

/-- A part is read somewhere after a place. -/
def Part.ReadFrom (c : Cursor) (p : Part) : Prop := ∃ d d', c.Reaches d ∧ p.At d d'

theorem Part.ReadFrom.of_reaches {p : Part} (h : c.Reaches d) (hp : p.ReadFrom d) :
    p.ReadFrom c := by
  obtain ⟨e, e', hreach, hread⟩ := hp
  exact ⟨e, e', h.trans hreach, hread⟩

mutual

/-- Every part of an expression that is read is read there. -/
theorem ExpressionAt.parts : ∀ {t : ExpressionTree} {c c' : Cursor}, ExpressionAt c t c' →
    ∀ p ∈ t.parts, p.ReadFrom c
  | .mk _ _ _, c, _, .mk hfirst hsteps => by
      refine List.forall_mem_cons.mpr ⟨⟨c, _, .refl, ExpressionAt.mk hfirst hsteps⟩,
        List.forall_mem_append.mpr ⟨hfirst.parts, ?_⟩⟩
      exact fun p hp => (hsteps.parts p hp).of_reaches hfirst.reaches

theorem ExpressionStepsAt.parts : ∀ {steps : List ExpressionStep} {c c' : Cursor},
    ExpressionStepsAt c steps c' → ∀ p ∈ ExpressionTree.stepParts steps, p.ReadFrom c
  | [], _, _, .nil => by simp [ExpressionTree.stepParts]
  | .mk _ _ _ :: _, _, _, .cons hoperator hterm hsteps => by
      have hreach := (Cursor.Reaches.refl.afterGap.trans hoperator.reaches).afterGap
      refine List.forall_mem_append.mpr ⟨?_, ?_⟩
      · exact fun p hp => (hterm.parts p hp).of_reaches hreach
      · exact fun p hp => (hsteps.parts p hp).of_reaches (hreach.trans hterm.reaches)

theorem TermAt.parts : ∀ {t : TermTree} {c c' : Cursor}, TermAt c t c' →
    ∀ p ∈ t.parts, p.ReadFrom c
  | .mk _ _ _, c, _, .mk hfirst hsteps => by
      refine List.forall_mem_cons.mpr ⟨⟨c, _, .refl, TermAt.mk hfirst hsteps⟩,
        List.forall_mem_append.mpr ⟨hfirst.parts, ?_⟩⟩
      exact fun p hp => (hsteps.parts p hp).of_reaches hfirst.reaches

theorem TermStepsAt.parts : ∀ {steps : List TermStep} {c c' : Cursor},
    TermStepsAt c steps c' → ∀ p ∈ TermTree.stepParts steps, p.ReadFrom c
  | [], _, _, .nil => by simp [TermTree.stepParts]
  | .mk _ _ _ :: _, _, _, .cons hoperator hfactor hsteps => by
      have hreach := (Cursor.Reaches.refl.afterGap.trans hoperator.reaches).afterGap
      refine List.forall_mem_append.mpr ⟨?_, ?_⟩
      · exact fun p hp => (hfactor.parts p hp).of_reaches hreach
      · exact fun p hp => (hsteps.parts p hp).of_reaches (hreach.trans hfactor.reaches)

theorem FactorAt.parts : ∀ {x : FactorTree} {c c' : Cursor}, FactorAt c x c' →
    ∀ p ∈ x.parts, p.ReadFrom c
  | .call _ _ _ _, c, _, .call hname hspan hopen hfirst hothers hclose => by
      have hreach := (hname.reaches.afterGap.trans hopen.reaches).afterGap
      refine List.forall_mem_cons.mpr
        ⟨⟨c, _, .refl, FactorAt.call hname hspan hopen hfirst hothers hclose⟩,
          List.forall_mem_append.mpr ⟨?_, ?_⟩⟩
      · exact fun p hp => (hfirst.parts p hp).of_reaches hreach
      · exact fun p hp => (hothers.parts p hp).of_reaches (hreach.trans hfirst.reaches)
  | .reference _ _, c, _, .reference hname hspan =>
      List.forall_mem_singleton.mpr ⟨c, _, .refl, FactorAt.reference hname hspan⟩
  | .constant _, c, _, .constant hliteral hspan =>
      List.forall_mem_singleton.mpr ⟨c, _, .refl, FactorAt.constant hliteral hspan⟩
  | .group _, c, _, .group hopen hinner hclose => by
      refine List.forall_mem_cons.mpr ⟨⟨c, _, .refl, FactorAt.group hopen hinner hclose⟩, ?_⟩
      exact fun p hp => (hinner.parts p hp).of_reaches hopen.reaches.afterGap

theorem ArgumentsAt.parts : ∀ {es : List ExpressionTree} {c c' : Cursor},
    ArgumentsAt c es c' → ∀ p ∈ ExpressionTree.argumentParts es, p.ReadFrom c
  | [], _, _, .nil => by simp [ExpressionTree.argumentParts]
  | _ :: _, _, _, .cons hcomma hargument hothers => by
      have hreach := (Cursor.Reaches.refl.afterGap.trans hcomma.reaches).afterGap
      refine List.forall_mem_append.mpr ⟨?_, ?_⟩
      · exact fun p hp => (hargument.parts p hp).of_reaches hreach
      · exact fun p hp => (hothers.parts p hp).of_reaches (hreach.trans hargument.reaches)

end

/-- A term covers what it is read from. -/
theorem TermAt.span_eq {span : Span} {first : FactorTree} {steps : List TermStep}
    (h : TermAt c (.mk span first steps) c') : span = ⟨c.offset, c'.offset⟩ := by
  cases h
  rfl

/-! ## Factors by their phrases -/

namespace FactorAt

variable {x : FactorTree} {name literal : List Char} {first : ExpressionPhrase}
  {others : List ExpressionPhrase}

theorem of_call (h : FactorAt c x c') (hphrase : x.phrase = .call name first others) :
    ∃ l first' others', x = .call ⟨c.offset, c'.offset⟩ l first' others' ∧
      l.text.toList = name ∧ first'.phrase = first ∧ ExpressionTree.phrases others' = others := by
  cases h with
  | @call _ _ _ _ _ _ l first' others' _ _ _ _ _ _ =>
      obtain ⟨hname, hfirst, hothers⟩ := FactorPhrase.call.inj hphrase
      exact ⟨l, first', others', rfl, hname, hfirst, hothers⟩
  | _ => simp [FactorTree.phrase] at hphrase

theorem of_reference (h : FactorAt c x c') (hphrase : x.phrase = .reference name) :
    ∃ place d, x = .reference place ⟨String.ofList name, ⟨c.offset, d.offset⟩⟩ ∧
      TokenAt c (.name name) d := by
  cases h with
  | @reference _ d l hname hspan =>
      obtain ⟨text, span⟩ := l
      obtain rfl : text.toList = name := FactorPhrase.reference.inj hphrase
      obtain rfl : span = ⟨c.offset, d.offset⟩ := hspan
      exact ⟨_, d, by rw [String.ofList_toList], hname⟩
  | _ => simp [FactorTree.phrase] at hphrase

theorem of_constant (h : FactorAt c x c') (hphrase : x.phrase = .constant literal) :
    x = .constant ⟨String.ofList literal, ⟨c.offset, c'.offset⟩⟩ ∧
      TokenAt c (.literal literal) c' := by
  cases h with
  | @constant _ _ l hliteral hspan =>
      obtain ⟨text, span⟩ := l
      obtain rfl : text.toList = literal := FactorPhrase.constant.inj hphrase
      obtain rfl : span = ⟨c.offset, c'.offset⟩ := hspan
      exact ⟨by rw [String.ofList_toList], hliteral⟩
  | _ => simp [FactorTree.phrase] at hphrase

end FactorAt

/-! ## How a part ends -/

theorem TokenAt.atToken (h : TokenAt c t c') : c.AtToken := by
  obtain ⟨rest, hm, rfl⟩ := h
  intro d hd
  obtain ⟨tail, htail⟩ := List.head?_eq_some_iff.mp hd
  rw [htail] at hm
  exact hm.not_isGap

theorem FactorAt.atToken {x : FactorTree} (h : FactorAt c x c') : c.AtToken := by
  cases h with
  | call hname _ _ _ _ _ => exact hname.atToken
  | reference hname _ => exact hname.atToken
  | constant hliteral _ => exact hliteral.atToken
  | group hopen _ _ => exact hopen.atToken

theorem TermAt.atToken {t : TermTree} (h : TermAt c t c') : c.AtToken := by
  cases h with
  | mk hfirst _ => exact hfirst.atToken

/-- A stretch that ends with a word. -/
def Cursor.EndsWithWord (c c' : Cursor) : Prop :=
  ∃ front, ∃ t : Token, t.Valid ∧ c.Between (front ++ t.text) c'

theorem Cursor.EndsWithWord.of_reaches (h : c.Reaches d) (hword : d.EndsWithWord c') :
    c.EndsWithWord c' := by
  obtain ⟨read, hread⟩ := h.exists_between
  obtain ⟨front, t, ht, hfront⟩ := hword
  refine ⟨read ++ front, t, ht, ?_⟩
  rw [List.append_assoc]
  exact hread.trans hfront

theorem TokenAt.endsWithWord (h : TokenAt c t c') : c.EndsWithWord c' :=
  ⟨[], t, h.valid, h.between⟩

/-- A factor that is the name of a variable. -/
def FactorPhrase.isReference : FactorPhrase → Bool
  | .reference _ => true
  | _ => false

/-- The last factor of a first one and the steps after it. -/
def TermPhrase.lastFactor : FactorPhrase → List TermPhraseStep → FactorPhrase
  | x, [] => x
  | _, .mk _ x :: steps => TermPhrase.lastFactor x steps

/-- The end of a stretch whose last factor is known: the blanks after a variable belong to it,
and nothing else ends with blanks. -/
def Cursor.EndsAs (c c' : Cursor) (x : FactorPhrase) : Prop :=
  if x.isReference then c'.AtToken else c.EndsWithWord c'

theorem Cursor.EndsAs.of_reaches {x : FactorPhrase} (h : c.Reaches d) (hend : d.EndsAs c' x) :
    c.EndsAs c' x := by
  unfold EndsAs at hend ⊢
  by_cases hx : x.isReference = true
  · rw [if_pos hx] at hend ⊢
    exact hend
  · rw [if_neg hx] at hend ⊢
    exact hend.of_reaches h

theorem FactorAt.endsAs {x : FactorTree} (h : FactorAt c x c') : c.EndsAs c' x.phrase := by
  cases h with
  | reference _ _ => exact Cursor.atToken_afterGap _
  | constant hliteral _ => exact hliteral.endsWithWord
  | call hname _ hopen hfirst hothers hclose =>
      obtain ⟨ps, hps, _⟩ := hothers.stand
      have hreach := (hname.reaches.afterGap.trans hopen.reaches).afterGap.trans hfirst.reaches
      exact hclose.endsWithWord.of_reaches (hreach.trans ⟨ps, hps⟩).afterGap
  | group hopen hinner hclose =>
      exact hclose.endsWithWord.of_reaches (hopen.reaches.afterGap.trans hinner.reaches).afterGap

theorem TermStepsAt.endsAs : ∀ {steps : List TermStep} {x : FactorTree} {c d e : Cursor},
    FactorAt c x d → TermStepsAt d steps e →
    c.EndsAs e (TermPhrase.lastFactor x.phrase (TermTree.stepPhrases steps))
  | [], _, _, _, _, hx, .nil => hx.endsAs
  | .mk _ _ _ :: _, _, _, _, _, hx, .cons hoperator hfactor hsteps =>
      (TermStepsAt.endsAs hfactor hsteps).of_reaches
        (hx.reaches.afterGap.trans hoperator.reaches).afterGap

theorem TermAt.endsAs {span : Span} {first : FactorTree} {step : TermStep} {steps : List TermStep}
    (h : TermAt c (.mk span first (step :: steps)) c') :
    c.EndsAs c' (TermPhrase.lastFactor first.phrase (TermTree.stepPhrases (step :: steps))) := by
  cases h with
  | mk hfirst hsteps => exact TermStepsAt.endsAs hfirst hsteps

/-- Where only blanks are left of a stretch that ends with a word, nothing is left. -/
theorem Cursor.EndsWithWord.rest_eq_nil {n : Nat} (h : c.EndsWithWord c')
    (hread : c.Between text c') (hinside : Cursor.Between ⟨text, n⟩ read d)
    (hblank : d.afterGap.rest = []) : d.rest = [] := by
  obtain ⟨front, t, ht, hfront⟩ := h
  have htext : front ++ t.text = read ++ d.rest := (hfront.unique hread).trans hinside.rest
  have hgap : ∀ x ∈ d.rest, Scan.isGap x = true := List.dropWhile_eq_nil_iff.mp hblank
  cases hlast : d.rest.getLast? with
  | none => exact List.getLast?_eq_none_iff.mp hlast
  | some x =>
      obtain ⟨y, ys, hstart, _⟩ := ht.starts
      have hword : (front ++ t.text).getLast? = t.text.getLast? := by
        simp [List.getLast?_append, hstart, List.getLast?_cons]
      have hx : t.text.getLast? = some x := by
        rw [← hword, htext, List.getLast?_append, hlast, Option.some_or]
      have hvisible := (ht.isVisible x (List.mem_of_getLast? hx)).not_isBlank
      rw [isBlank_of_isGap (hgap x (List.mem_of_getLast? hlast))] at hvisible
      simp at hvisible

/-- Two stretches with the same last factor, one within the text of the other: if only blanks
are left, nothing is left. -/
theorem Cursor.EndsAs.rest_eq_nil {x : FactorPhrase} {n : Nat} (h : c.EndsAs c' x)
    (hread : c.Between text c') (hend : Cursor.EndsAs ⟨text, n⟩ d x)
    (hinside : Cursor.Between ⟨text, n⟩ read d) (hblank : d.afterGap.rest = []) :
    d.rest = [] := by
  unfold EndsAs at h hend
  by_cases hx : x.isReference = true
  · rw [if_pos hx] at hend
    rwa [hend.afterGap_eq] at hblank
  · rw [if_neg hx] at h
    exact h.rest_eq_nil hread hinside hblank

/-! ## The text of a part alone -/

theorem Cursor.AtToken.of_between {n : Nat} (h : c.AtToken) (hread : c.Between text c') :
    Cursor.AtToken ⟨text, n⟩ := by
  intro x hx
  refine h x ?_
  rw [hread.rest, List.head?_append, hx, Option.some_or]

/-- The place at the end of a text. -/
theorem Cursor.Between.eq_end (h : Cursor.Between ⟨text, 0⟩ read d) (hrest : d.rest = []) :
    d = ⟨[], byteLength text⟩ := by
  have htext : text = read ++ d.rest := h.rest
  have hoffset : d.offset = 0 + byteLength read := h.offset
  rw [hrest, List.append_nil] at htext
  rw [htext, ← Nat.zero_add (byteLength read), ← hoffset, ← hrest]

/-- A text that is cut into the tokens of a term has a parse tree that is this term. -/
theorem exists_tree_of_isTerm {φ : TermPhrase} (hcut : Cut text ts) (hterm : IsTerm ts φ [])
    (htoken : Cursor.AtToken ⟨text, 0⟩) :
    ∃ span u d, tree (String.ofList text) = .ok (.mk span u []) ∧ u.phrase = φ ∧
      TermAt ⟨text, 0⟩ u d ∧ d.afterGap.rest = [] := by
  have hcut' : Cut (String.ofList text).toList ts := by rwa [String.toList_ofList]
  obtain ⟨⟨span, u, steps⟩, htree, hphrase⟩ := tree_complete hcut' (.mk hterm .nil)
  obtain ⟨hu, hsteps⟩ := ExpressionPhrase.mk.inj hphrase
  obtain rfl : steps = [] := by
    rw [← List.length_eq_zero_iff, ← ExpressionTree.length_stepPhrases, hsteps, List.length_nil]
  obtain ⟨d, hread, hrest⟩ := tree_at htree
  have hstart : (Cursor.ofString (String.ofList text)).afterGap = ⟨text, 0⟩ := by
    rw [Cursor.ofString, String.toList_ofList, htoken.afterGap_eq]
  rw [hstart] at hread
  cases hread with
  | mk hfirst hnone =>
      cases hnone
      refine ⟨_, u, _, htree, hu, hfirst, ?_⟩
      rwa [Cursor.beyond, Cursor.afterGap_afterGap] at hrest

theorem exists_tree_of_isFactor {φ : FactorPhrase} (hcut : Cut text ts)
    (hfactor : IsFactor ts φ []) (htoken : Cursor.AtToken ⟨text, 0⟩) :
    ∃ span span' x d, tree (String.ofList text) = .ok (.mk span (.mk span' x []) []) ∧
      x.phrase = φ ∧ FactorAt ⟨text, 0⟩ x d ∧ d.afterGap.rest = [] := by
  obtain ⟨span, ⟨span', x, steps⟩, d, htree, hphrase, hread, hblank⟩ :=
    exists_tree_of_isTerm hcut (.mk hfactor .nil) htoken
  obtain ⟨hx, hsteps⟩ := TermPhrase.mk.inj hphrase
  obtain rfl : steps = [] := by
    rw [← List.length_eq_zero_iff, ← TermTree.length_stepPhrases, hsteps, List.length_nil]
  cases hread with
  | mk hfirst hnone =>
      cases hnone
      rw [Cursor.beyond, Cursor.afterGap_afterGap] at hblank
      exact ⟨span, _, x, _, htree, hx, hfirst, hblank⟩

/-- What a term with steps covers is, alone, such a term from its start to its end. -/
theorem TermAt.alone {span : Span} {first : FactorTree} {step : TermStep} {steps : List TermStep}
    (h : TermAt c (.mk span first (step :: steps)) c') :
    ∃ text span' u, c.Between text c' ∧ tree (String.ofList text) = .ok (.mk span' u []) ∧
      u.phrase = TermTree.phrase (.mk span first (step :: steps)) ∧
      TermAt ⟨text, 0⟩ u ⟨[], byteLength text⟩ := by
  obtain ⟨ps, hps, hstands⟩ := h.stands
  obtain ⟨text, hread, hcut⟩ := hps.exists_cut
  have hterm := (hstands [] (by simp [NotOpening])).phrase
  rw [List.append_nil] at hterm
  obtain ⟨span', ⟨uspan, ufirst, usteps⟩, d, htree, hphrase, hu, hblank⟩ :=
    exists_tree_of_isTerm hcut hterm (h.atToken.of_between hread)
  obtain ⟨inside, hinside⟩ := hu.reaches.exists_between
  obtain ⟨hfirst, hsteps⟩ := TermPhrase.mk.inj hphrase
  refine ⟨text, span', _, hread, htree, hphrase, ?_⟩
  cases usteps with
  | nil =>
      have hlength := congrArg List.length hsteps
      rw [TermTree.length_stepPhrases, TermTree.length_stepPhrases] at hlength
      simp at hlength
  | cons ustep usteps =>
      have hend := hu.endsAs
      rw [hfirst, hsteps] at hend
      rwa [hinside.eq_end (h.endsAs.rest_eq_nil hread hend hinside hblank)] at hu

/-- What a factor covers is, alone, such a factor from its start to its end. -/
theorem FactorAt.alone {x : FactorTree} (h : FactorAt c x c') :
    ∃ text span span' y, c.Between text c' ∧
      tree (String.ofList text) = .ok (.mk span (.mk span' y []) []) ∧ y.phrase = x.phrase ∧
      FactorAt ⟨text, 0⟩ y ⟨[], byteLength text⟩ := by
  obtain ⟨ps, hps, hstands⟩ := h.stands
  obtain ⟨text, hread, hcut⟩ := hps.exists_cut
  have hfactor := (hstands [] (by simp [NotOpening])).phrase
  rw [List.append_nil] at hfactor
  obtain ⟨span, span', y, d, htree, hphrase, hy, hblank⟩ :=
    exists_tree_of_isFactor hcut hfactor (h.atToken.of_between hread)
  obtain ⟨inside, hinside⟩ := hy.reaches.exists_between
  have hend := hy.endsAs
  rw [hphrase] at hend
  refine ⟨text, span, span', y, hread, htree, hphrase, ?_⟩
  rwa [hinside.eq_end (h.endsAs.rest_eq_nil hread hend hinside hblank)] at hy

/-- A name alone is a variable, without the blanks that a variable may cover. -/
theorem TokenAt.alone {name : List Char} (h : TokenAt c (.name name) c') :
    ∃ span span' span'', tree (String.ofList name) =
      .ok (.mk span (.mk span' (.reference span'' ⟨String.ofList name, ⟨0, byteLength name⟩⟩) [])
        []) := by
  have htoken := h.atToken
  have hword : c.Between name c' := h.between
  obtain ⟨rest, hm, rfl⟩ := h
  rw [← hm.append] at hm
  have hm' : Munches name (.name name) [] := Munches.truncate (x := rest) hm
  obtain ⟨span, span', x, d, htree, hphrase, hx, -⟩ :=
    exists_tree_of_isFactor (.token hm' .nil) (.reference (by simp)) (htoken.of_between hword)
  obtain ⟨place, d', rfl, tail, -, rfl⟩ := hx.of_reference hphrase
  refine ⟨span, span', place, htree.trans ?_⟩
  simp [Cursor.past, Token.text]

end MetricFormula.Grammar
