/-
  Proofs/Grammar/Enclosure: which expressions of a parse tree stand around a place.

  An expression stands at the top of a tree, in every group, and for every argument of a call.
  `levels` is how many of them stand inside each other, and `enclosing` how many of them cover
  a place of the text.

  Reading the tokens from the left, one knows how many parentheses are open, and nothing of
  the tree.  That number tells how many expressions stand around an opening parenthesis
  (`ExpressionStands.encloses`): the expressions inside a group or a call cover no place
  outside its parentheses, and each part of the tree closes what it opens.
-/
import MetricFormula.Proofs.Grammar.Construct

set_option autoImplicit false

namespace MetricFormula.Grammar

/-! ## The expressions of a tree -/

mutual

/-- An expression and all expressions inside it. -/
def ExpressionTree.expressions : ExpressionTree → List ExpressionTree
  | .mk span first steps =>
      .mk span first steps :: (first.expressions ++ ExpressionTree.stepExpressions steps)

/-- The expressions inside steps. -/
def ExpressionTree.stepExpressions : List ExpressionStep → List ExpressionTree
  | [] => []
  | .mk _ _ term :: steps => term.expressions ++ ExpressionTree.stepExpressions steps

/-- The expressions inside a term. -/
def TermTree.expressions : TermTree → List ExpressionTree
  | .mk _ first steps => first.expressions ++ TermTree.stepExpressions steps

/-- The expressions inside steps. -/
def TermTree.stepExpressions : List TermStep → List ExpressionTree
  | [] => []
  | .mk _ _ factor :: steps => factor.expressions ++ TermTree.stepExpressions steps

/-- The arguments of a call and the expression of a group, and all expressions inside them. -/
def FactorTree.expressions : FactorTree → List ExpressionTree
  | .call _ _ first others => first.expressions ++ ExpressionTree.argumentExpressions others
  | .reference _ _ => []
  | .constant _ => []
  | .group inner => inner.expressions

/-- Arguments and all expressions inside them. -/
def ExpressionTree.argumentExpressions : List ExpressionTree → List ExpressionTree
  | [] => []
  | e :: es => e.expressions ++ ExpressionTree.argumentExpressions es

end

/-- How many expressions stand around a place. -/
def covering (es : List ExpressionTree) (place : Nat) : Nat :=
  es.countP fun e => e.span.start ≤ place ∧ place < e.span.stop

/-- How many expressions of a tree stand around a place, the whole tree among them. -/
def ExpressionTree.enclosing (t : ExpressionTree) (place : Nat) : Nat :=
  covering t.expressions place

/-! ## Levels -/

mutual

/-- How many expressions stand inside each other, the whole tree being the first. -/
def ExpressionTree.levels : ExpressionTree → Nat
  | .mk _ first steps => max first.levels (ExpressionTree.stepLevels steps) + 1

/-- The most levels among steps. -/
def ExpressionTree.stepLevels : List ExpressionStep → Nat
  | [] => 0
  | .mk _ _ term :: steps => max term.levels (ExpressionTree.stepLevels steps)

/-- The levels of a term. -/
def TermTree.levels : TermTree → Nat
  | .mk _ first steps => max first.levels (TermTree.stepLevels steps)

/-- The most levels among steps. -/
def TermTree.stepLevels : List TermStep → Nat
  | [] => 0
  | .mk _ _ factor :: steps => max factor.levels (TermTree.stepLevels steps)

/-- The levels of a factor: those of its arguments, or of the expression in its parentheses. -/
def FactorTree.levels : FactorTree → Nat
  | .call _ _ first others => max first.levels (ExpressionTree.argumentLevels others)
  | .reference _ _ => 0
  | .constant _ => 0
  | .group inner => inner.levels

/-- The most levels among arguments. -/
def ExpressionTree.argumentLevels : List ExpressionTree → Nat
  | [] => 0
  | e :: es => max e.levels (ExpressionTree.argumentLevels es)

end

mutual

/-- Every pair of parentheses makes one more level. -/
theorem ExpressionTree.levels_eq : ∀ t : ExpressionTree, t.levels = t.phrase.depth + 1
  | .mk _ first steps => by
      rw [ExpressionTree.levels, first.levels_eq, ExpressionTree.stepLevels_eq steps,
        ExpressionTree.phrase, ExpressionPhrase.depth]

theorem ExpressionTree.stepLevels_eq : ∀ steps : List ExpressionStep,
    ExpressionTree.stepLevels steps =
      ExpressionPhrase.stepsDepth (ExpressionTree.stepPhrases steps)
  | [] => rfl
  | .mk _ _ term :: steps => by
      rw [ExpressionTree.stepLevels, term.levels_eq, ExpressionTree.stepLevels_eq steps,
        ExpressionTree.stepPhrases, ExpressionPhrase.stepsDepth]

theorem TermTree.levels_eq : ∀ t : TermTree, t.levels = t.phrase.depth
  | .mk _ first steps => by
      rw [TermTree.levels, first.levels_eq, TermTree.stepLevels_eq steps, TermTree.phrase,
        TermPhrase.depth]

theorem TermTree.stepLevels_eq : ∀ steps : List TermStep,
    TermTree.stepLevels steps = TermPhrase.stepsDepth (TermTree.stepPhrases steps)
  | [] => rfl
  | .mk _ _ factor :: steps => by
      rw [TermTree.stepLevels, factor.levels_eq, TermTree.stepLevels_eq steps,
        TermTree.stepPhrases, TermPhrase.stepsDepth]

theorem FactorTree.levels_eq : ∀ x : FactorTree, x.levels = x.phrase.depth
  | .call _ _ first others => by
      rw [FactorTree.levels, first.levels_eq, ExpressionTree.argumentLevels_eq others,
        FactorTree.phrase, FactorPhrase.depth]
  | .reference _ _ => rfl
  | .constant _ => rfl
  | .group inner => by
      rw [FactorTree.levels, inner.levels_eq, FactorTree.phrase, FactorPhrase.depth]

/-- Further arguments next to one of a given depth. -/
theorem ExpressionTree.argumentLevels_eq : ∀ (es : List ExpressionTree) {depth : Nat},
    max (depth + 1) (ExpressionTree.argumentLevels es) =
      max depth (ExpressionPhrase.depths (ExpressionTree.phrases es)) + 1
  | [], depth => by
      rw [ExpressionTree.argumentLevels, ExpressionTree.phrases, ExpressionPhrase.depths]
      omega
  | e :: es, depth => by
      rw [ExpressionTree.argumentLevels, ExpressionTree.phrases, ExpressionPhrase.depths,
        ← Nat.max_assoc, ← Nat.max_assoc, e.levels_eq, Nat.add_max_add_right,
        ExpressionTree.argumentLevels_eq es]

end

/-! ## Parentheses among tokens -/

/-- An opening parenthesis: where it stands, and around it, how many expressions. -/
structure Parenthesis where
  place : Nat
  enclosing : Nat

/-- The opening parentheses among tokens, where `depth` of them are open already.  The
expression outside of all parentheses stands around each of them as well. -/
def openings : (depth : Nat) → List PlacedToken → List Parenthesis
  | _, [] => []
  | depth, p :: ps =>
      if p.token = .symbol '(' then ⟨p.span.start, depth + 1⟩ :: openings (depth + 1) ps
      else if p.token = .symbol ')' then openings (depth - 1) ps
      else openings depth ps

variable {depth : Nat} {ps : List PlacedToken}

theorem openings_opening (place : Nat) :
    openings depth (.symbol '(' place :: ps) = ⟨place, depth + 1⟩ :: openings (depth + 1) ps :=
  rfl

theorem openings_closing (place : Nat) :
    openings depth (.symbol ')' place :: ps) = openings (depth - 1) ps := rfl

theorem openings_cons {p : PlacedToken} (hopen : p.token ≠ .symbol '(')
    (hclose : p.token ≠ .symbol ')') : openings depth (p :: ps) = openings depth ps := by
  rw [openings, if_neg hopen, if_neg hclose]

/-! ## Around the parentheses of a part -/

theorem covering_cons (e : ExpressionTree) (es : List ExpressionTree) {place : Nat}
    (hstart : e.span.start ≤ place) (hstop : place < e.span.stop) :
    covering (e :: es) place = covering es place + 1 :=
  List.countP_cons_of_pos (by simpa using ⟨hstart, hstop⟩)

theorem covering_append (es es' : List ExpressionTree) (place : Nat) :
    covering (es ++ es') place = covering es place + covering es' place :=
  List.countP_append

/-- Expressions between two offsets cover no place outside them. -/
theorem covering_eq_zero {es : List ExpressionTree} {n m place : Nat}
    (hwithin : ∀ e ∈ es, n ≤ e.span.start ∧ e.span.stop ≤ m) (h : place < n ∨ m ≤ place) :
    covering es place = 0 := by
  apply List.countP_eq_zero.mpr
  intro e he
  have := hwithin e he
  simp only [decide_eq_true_eq]
  omega

/-- From the tokens `ps` to the tokens `qs` all parentheses are closed that are opened, and both
they and the expressions `es` stand between `n` and `m`.  Around each that is opened stand an
expression for each that is open before it, `outside` more, and those of `es` that cover it. -/
structure Encloses (outside n m : Nat) (ps qs : List PlacedToken)
    (es : List ExpressionTree) : Prop where
  within : ∀ e ∈ es, n ≤ e.span.start ∧ e.span.stop ≤ m
  openings : ∀ depth, ∃ os, openings depth ps = os ++ openings depth qs ∧
    ∀ o ∈ os, n ≤ o.place ∧ o.place < m ∧ o.enclosing = depth + outside + covering es o.place

namespace Encloses

variable {outside n k l m : Nat} {qs rs : List PlacedToken} {es es' : List ExpressionTree}

theorem nil : Encloses outside n m ps ps [] where
  within := by simp
  openings _ := ⟨[], rfl, by simp⟩

theorem mono (h : Encloses outside k l ps qs es) (hn : n ≤ k) (hm : l ≤ m) :
    Encloses outside n m ps qs es where
  within := by
    intro e he
    obtain ⟨hstart, hstop⟩ := h.within e he
    exact ⟨Nat.le_trans hn hstart, Nat.le_trans hstop hm⟩
  openings := by
    intro depth
    obtain ⟨os, heq, hos⟩ := h.openings depth
    refine ⟨os, heq, ?_⟩
    intro o ho
    obtain ⟨hstart, hstop, henclosing⟩ := hos o ho
    exact ⟨Nat.le_trans hn hstart, Nat.lt_of_lt_of_le hstop hm, henclosing⟩

/-- A part, and one that follows it. -/
theorem append (h : Encloses outside n k ps qs es) (h' : Encloses outside k m qs rs es')
    (hn : n ≤ k) (hm : k ≤ m) : Encloses outside n m ps rs (es ++ es') where
  within := by
    intro e he
    rcases List.mem_append.mp he with he | he
    · exact (h.mono (Nat.le_refl n) hm).within e he
    · exact (h'.mono hn (Nat.le_refl m)).within e he
  openings := by
    intro depth
    obtain ⟨os, heq, hos⟩ := h.openings depth
    obtain ⟨os', heq', hos'⟩ := h'.openings depth
    refine ⟨os ++ os', ?_, ?_⟩
    · rw [heq, heq', List.append_assoc]
    · intro o ho
      rw [covering_append]
      rcases List.mem_append.mp ho with ho | ho
      · obtain ⟨hstart, hstop, henclosing⟩ := hos o ho
        rw [henclosing, covering_eq_zero h'.within (Or.inl hstop)]
        exact ⟨hstart, Nat.lt_of_lt_of_le hstop hm, rfl⟩
      · obtain ⟨hstart, hstop, henclosing⟩ := hos' o ho
        rw [henclosing, covering_eq_zero h.within (Or.inr hstart), Nat.zero_add]
        exact ⟨Nat.le_trans hn hstart, hstop, rfl⟩

/-- A word or an operator opens and closes nothing. -/
theorem cons {p : PlacedToken} (h : Encloses outside n m ps qs es)
    (hopen : p.token ≠ .symbol '(') (hclose : p.token ≠ .symbol ')') :
    Encloses outside n m (p :: ps) qs es where
  within := h.within
  openings := by
    intro depth
    rw [openings_cons hopen hclose]
    exact h.openings depth

/-- Parentheses around a part.  What is outside of the part is one more expression for the
place of the opening one. -/
theorem parenthesised {opening closing : Nat}
    (h : Encloses 0 n m ps (.symbol ')' closing :: qs) es) (hopening : opening < n)
    (hlt : n < m) (hclosing : m ≤ closing) :
    Encloses 1 opening (closing + 1) (.symbol '(' opening :: ps) qs es where
  within := (h.mono (Nat.le_of_lt hopening) (Nat.le_succ_of_le hclosing)).within
  openings := by
    intro depth
    obtain ⟨os, heq, hos⟩ := h.openings (depth + 1)
    rw [openings_closing, Nat.add_sub_cancel] at heq
    refine ⟨⟨opening, depth + 1⟩ :: os, ?_, ?_⟩
    · rw [openings_opening, heq, List.cons_append]
    · intro o ho
      rcases List.mem_cons.mp ho with rfl | ho
      · rw [covering_eq_zero h.within (Or.inl hopening)]
        refine ⟨Nat.le_refl _, ?_, rfl⟩
        dsimp only
        omega
      · obtain ⟨hstart, hstop, henclosing⟩ := hos o ho
        refine ⟨?_, ?_, henclosing⟩
        · omega
        · omega

/-- The terms of an expression, and the expression itself, which covers all of them. -/
theorem expression {e : ExpressionTree} (h : Encloses 1 n m ps qs es) (hspan : e.span = ⟨n, m⟩) :
    Encloses 0 n m ps qs (e :: es) where
  within := by
    intro e' he'
    rcases List.mem_cons.mp he' with rfl | he'
    · rw [hspan]
      exact ⟨Nat.le_refl n, Nat.le_refl m⟩
    · exact h.within e' he'
  openings := by
    intro depth
    obtain ⟨os, heq, hos⟩ := h.openings depth
    refine ⟨os, heq, ?_⟩
    intro o ho
    obtain ⟨hstart, hstop, henclosing⟩ := hos o ho
    refine ⟨hstart, hstop, ?_⟩
    rw [covering_cons e es (by rwa [hspan]) (by rwa [hspan])]
    omega

end Encloses

mutual

/-- The parentheses that are open tell which expressions stand around the next one. -/
theorem ExpressionStands.encloses :
    ∀ {t : ExpressionTree} {n m : Nat} {ps qs : List PlacedToken},
      ExpressionStands n ps t m qs → Encloses 0 n m ps qs t.expressions
  | .mk _ _ _, _, _, _, _, .mk hfirst hsteps =>
      (hfirst.encloses.append hsteps.encloses (Nat.le_of_lt hfirst.lt) hsteps.le).expression rfl

theorem ExpressionStepsStand.encloses :
    ∀ {steps : List ExpressionStep} {n m : Nat} {ps qs : List PlacedToken},
      ExpressionStepsStand n ps steps m qs →
      Encloses 1 n m ps qs (ExpressionTree.stepExpressions steps)
  | [], _, _, _, _, .nil _ => .nil
  | .mk operator _ _ :: _, _, _, _, _, .cons hplace hstart hterm hsteps => by
      have hle := Nat.le_of_lt (Nat.lt_of_le_of_lt hplace hstart)
      have hrest := hterm.encloses.append hsteps.encloses (Nat.le_of_lt hterm.lt) hsteps.le
      obtain ⟨hopen, hclose⟩ := additive_not_parenthesis operator
      exact (hrest.mono hle (Nat.le_refl _)).cons hopen hclose

theorem TermStands.encloses : ∀ {t : TermTree} {n m : Nat} {ps qs : List PlacedToken},
    TermStands n ps t m qs → Encloses 1 n m ps qs t.expressions
  | .mk _ _ _, _, _, _, _, .mk hfirst hsteps =>
      hfirst.encloses.append hsteps.encloses (Nat.le_of_lt hfirst.lt) hsteps.le

theorem TermStepsStand.encloses :
    ∀ {steps : List TermStep} {n m : Nat} {ps qs : List PlacedToken},
      TermStepsStand n ps steps m qs → Encloses 1 n m ps qs (TermTree.stepExpressions steps)
  | [], _, _, _, _, .nil _ => .nil
  | .mk operator _ _ :: _, _, _, _, _, .cons hplace hstart hfactor hsteps => by
      have hle := Nat.le_of_lt (Nat.lt_of_le_of_lt hplace hstart)
      have hrest := hfactor.encloses.append hsteps.encloses (Nat.le_of_lt hfactor.lt) hsteps.le
      obtain ⟨hopen, hclose⟩ := multiplicative_not_parenthesis operator
      exact (hrest.mono hle (Nat.le_refl _)).cons hopen hclose

theorem FactorStands.encloses : ∀ {x : FactorTree} {n m : Nat} {ps qs : List PlacedToken},
    FactorStands n ps x m qs → Encloses 1 n m ps qs x.expressions
  | .call _ _ _ _, _, _, _, _, .call _ _ hopening hstart hfirst hothers hclosing => by
      have hinside := hfirst.encloses.append hothers.encloses (Nat.le_of_lt hfirst.lt) hothers.le
      have hlt := Nat.lt_of_lt_of_le hfirst.lt hothers.le
      have hcall := hinside.parenthesised hstart hlt hclosing
      exact (hcall.mono (Nat.le_of_lt hopening) (Nat.le_refl _)).cons (by simp [PlacedToken.name])
        (by simp [PlacedToken.name])
  | .reference _ _, _, _, _, _, .reference _ _ _ _ =>
      Encloses.nil.cons (by simp [PlacedToken.name]) (by simp [PlacedToken.name])
  | .constant _, _, _, _, _, .constant _ _ _ =>
      Encloses.nil.cons (by simp [PlacedToken.literal]) (by simp [PlacedToken.literal])
  | .group _, _, _, _, _, .group hstart hinner hclosing =>
      hinner.encloses.parenthesised hstart hinner.lt hclosing

theorem ArgumentsStand.encloses :
    ∀ {es : List ExpressionTree} {n m : Nat} {ps qs : List PlacedToken},
      ArgumentsStand n ps es m qs →
      Encloses 0 n m ps qs (ExpressionTree.argumentExpressions es)
  | [], _, _, _, _, .nil _ => .nil
  | _ :: _, _, _, _, _, .cons hplace hstart he hes => by
      have hle := Nat.le_of_lt (Nat.lt_of_le_of_lt hplace hstart)
      have hrest := he.encloses.append hes.encloses (Nat.le_of_lt he.lt) hes.le
      exact (hrest.mono hle (Nat.le_refl _)).cons (by simp [PlacedToken.symbol])
        (by simp [PlacedToken.symbol])

end

end MetricFormula.Grammar
