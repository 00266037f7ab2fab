/-
  Proofs/Grammar/Place: where the tokens of a text and the parts of its parse tree stand.

  `CutAt c ps` says that the text from the place `c` on is cut into the tokens `ps`, each
  with the bytes that it covers; it is `Cut` with places.  `CutTo c ps c'` says it of the
  stretch from `c` up to `c'`.

  `ExpressionStands n ps t m qs` says that the tokens `ps` begin with the parse tree `t`,
  which is read from offset `n` up to offset `m`, and that `qs` is what follows; likewise
  for the other kinds of trees.  The places that a tree records are those of its tokens.
  Without its places it is a phrase of the grammar (`ExpressionStands.phrase`).
-/
import MetricFormula.Proofs.Grammar.Matcher
import MetricFormula.Proofs.Grammar.Phrase

set_option autoImplicit false

namespace MetricFormula.Grammar

open MetricFormula.Text

/-! ## Tokens with their places -/

/-- A token and the bytes that it covers. -/
structure PlacedToken where
  token : Token
  span : Span
  deriving DecidableEq

namespace PlacedToken

/-- A name where it stands. -/
def name (l : Lexeme) : PlacedToken := ⟨.name l.text.toList, l.span⟩

/-- A literal where it stands. -/
def literal (l : Lexeme) : PlacedToken := ⟨.literal l.text.toList, l.span⟩

/-- A symbol at an offset.  Every symbol is one byte. -/
def symbol (c : Char) (place : Nat) : PlacedToken := ⟨.symbol c, ⟨place, place + 1⟩⟩

end PlacedToken

/-- A text cut by maximal munch from a place on, with blanks only between the tokens. -/
inductive CutAt : Cursor → List PlacedToken → Prop
  | nil {c : Cursor} : c.rest = [] → CutAt c []
  | gap {c : Cursor} {d : Char} {cs : List Char} {ps : List PlacedToken} :
      c.rest = d :: cs → Scan.isGap d = true → CutAt (c.past [d] cs) ps → CutAt c ps
  | token {c : Cursor} {rest : List Char} {t : Token} {ps : List PlacedToken} :
      Munches c.rest t rest → CutAt (c.past t.text rest) ps →
      CutAt c (⟨t, ⟨c.offset, c.offset + byteLength t.text⟩⟩ :: ps)

namespace CutAt

variable {c : Cursor} {ps : List PlacedToken}

/-- Without the places it is the cut of the text. -/
theorem cut (h : CutAt c ps) : Cut c.rest (ps.map PlacedToken.token) := by
  induction h with
  | nil hrest =>
      rw [hrest]
      exact .nil
  | gap hrest hd _ ih =>
      rw [hrest]
      exact .gap hd ih
  | token hm _ ih => exact .token hm ih

/-- A text can be cut in one way only. -/
theorem unique {qs : List PlacedToken} (h : CutAt c ps) (h' : CutAt c qs) : ps = qs := by
  induction h generalizing qs with
  | nil hrest =>
      cases h' with
      | nil _ => rfl
      | gap hrest' _ _ => simp [hrest] at hrest'
      | token hm _ => exact absurd hrest hm.ne_nil
  | gap hrest hd _ ih =>
      cases h' with
      | nil hrest' => simp [hrest] at hrest'
      | gap hrest' _ hqs =>
          rw [hrest] at hrest'
          obtain ⟨rfl, rfl⟩ := List.cons.inj hrest'
          exact ih hqs
      | token hm _ =>
          rw [hrest] at hm
          simp [hm.not_isGap] at hd
  | token hm _ ih =>
      cases h' with
      | nil hrest => exact absurd hrest hm.ne_nil
      | gap hrest hd _ =>
          rw [hrest] at hm
          simp [hm.not_isGap] at hd
      | token hm' hqs =>
          obtain ⟨rfl, rfl⟩ := hm.unique hm'
          rw [ih hqs]

end CutAt

/-! ## Stretches of a text -/

/-- `read` stands between two places of a text. -/
structure Cursor.Between (c : Cursor) (read : List Char) (c' : Cursor) : Prop where
  rest : c.rest = read ++ c'.rest
  offset : c'.offset = c.offset + byteLength read

namespace Cursor.Between

variable {c c' d : Cursor} {read read' rest : List Char}

theorem refl : c.Between [] c := ⟨rfl, rfl⟩

theorem past (h : c.rest = read ++ rest) : c.Between read (c.past read rest) := ⟨h, rfl⟩

theorem trans (h : c.Between read d) (h' : d.Between read' c') : c.Between (read ++ read') c' where
  rest := by rw [h.rest, h'.rest, List.append_assoc]
  offset := by rw [h'.offset, h.offset, byteLength_append, Nat.add_assoc]

theorem unique (h : c.Between read c') (h' : c.Between read' c') : read = read' :=
  List.append_cancel_right (h.rest.symm.trans h'.rest)

end Cursor.Between

/-- The text between two places is cut by maximal munch, with blanks only between the
tokens. -/
inductive CutTo : Cursor → List PlacedToken → Cursor → Prop
  | nil {c : Cursor} : CutTo c [] c
  | gap {c c' : Cursor} {d : Char} {cs : List Char} {ps : List PlacedToken} :
      c.rest = d :: cs → Scan.isGap d = true → CutTo (c.past [d] cs) ps c' → CutTo c ps c'
  | token {c c' : Cursor} {rest : List Char} {t : Token} {ps : List PlacedToken} :
      Munches c.rest t rest → CutTo (c.past t.text rest) ps c' →
      CutTo c (⟨t, ⟨c.offset, c.offset + byteLength t.text⟩⟩ :: ps) c'

namespace CutTo

variable {c c' d : Cursor} {ps qs : List PlacedToken}

theorem trans (h : CutTo c ps d) (h' : CutTo d qs c') : CutTo c (ps ++ qs) c' := by
  induction h with
  | nil => exact h'
  | gap hrest hd _ ih => exact .gap hrest hd (ih h')
  | token hm _ ih => exact .token hm (ih h')

/-- Up to the end of the text. -/
theorem cutAt (h : CutTo c ps c') (hqs : CutAt c' qs) : CutAt c (ps ++ qs) := by
  induction h with
  | nil => exact hqs
  | gap hrest hd _ ih => exact .gap hrest hd (ih hqs)
  | token hm _ ih => exact .token hm (ih hqs)

theorem afterGap (c : Cursor) : CutTo c [] c.afterGap := by
  obtain ⟨rest, offset⟩ := c
  induction rest generalizing offset with
  | nil => exact .nil
  | cons d rest ih =>
      by_cases hd : Scan.isGap d = true
      · refine .gap rfl hd ?_
        simpa [Cursor.afterGap, Cursor.past, List.takeWhile_cons, List.dropWhile_cons, hd,
          Nat.add_assoc] using ih (offset + byteLength [d])
      · have hstays : (Cursor.mk (d :: rest) offset).afterGap = ⟨d :: rest, offset⟩ := by
          simp [Cursor.afterGap, Cursor.past, hd]
        rw [hstays]
        exact .nil

/-- The stretch alone is a text that is cut into the same tokens. -/
theorem exists_cut (h : CutTo c ps c') :
    ∃ read, c.Between read c' ∧ Cut read (ps.map PlacedToken.token) := by
  induction h with
  | nil => exact ⟨[], .refl, .nil⟩
  | @gap _ _ d _ _ hrest hd _ ih =>
      obtain ⟨read, hread, hcut⟩ := ih
      have hgap : Cursor.Between _ [d] _ := .past hrest
      exact ⟨_, hgap.trans hread, .gap hd hcut⟩
  | @token _ c' rest _ _ hm _ ih =>
      obtain ⟨read, hread, hcut⟩ := ih
      have hword := (Cursor.Between.past hm.append.symm).trans hread
      have hrest : rest = read ++ c'.rest := hread.rest
      rw [hword.rest, hrest] at hm
      exact ⟨_, hword, .token hm.truncate hcut⟩

end CutTo

theorem Cursor.offset_le_afterGap (c : Cursor) : c.offset ≤ c.afterGap.offset :=
  Nat.le_add_right _ _

/-- A word covers at least one byte. -/
theorem Munches.byteLength_pos {cs rest : List Char} {t : Token} (h : Munches cs t rest) :
    0 < byteLength t.text := by
  obtain ⟨d, ds, htext, _⟩ := h.valid.starts
  rw [htext, byteLength_cons]
  exact Nat.lt_of_lt_of_le d.utf8Size_pos (Nat.le_add_right _ _)

theorem utf8Size_of_mem_symbols : ∀ d ∈ symbols, d.utf8Size = 1 := by
  intro d hd
  simp only [symbols, List.mem_cons, List.not_mem_nil, or_false] at hd
  rcases hd with rfl | rfl | rfl | rfl | rfl | rfl | rfl <;> rfl

/-! ## Parse trees with their places -/

mutual

/-- A term, then any number of steps. -/
inductive ExpressionStands :
    Nat → List PlacedToken → ExpressionTree → Nat → List PlacedToken → Prop
  | mk {n k m : Nat} {ps qs rs : List PlacedToken} {first : TermTree}
      {steps : List ExpressionStep} :
      TermStands n ps first k qs → ExpressionStepsStand k qs steps m rs →
      ExpressionStands n ps (.mk ⟨n, m⟩ first steps) m rs

/-- Any number of steps: `+` or `-` and a term.  Blanks may stand before each of them, and
if there is none they may still have been read. -/
inductive ExpressionStepsStand :
    Nat → List PlacedToken → List ExpressionStep → Nat → List PlacedToken → Prop
  | nil {n m : Nat} {ps : List PlacedToken} : n ≤ m → ExpressionStepsStand n ps [] m ps
  | cons {n place start k m : Nat} {ps qs rs : List PlacedToken} {operator : AdditiveOperator}
      {term : TermTree} {steps : List ExpressionStep} :
      n ≤ place → place < start → TermStands start ps term k qs →
      ExpressionStepsStand k qs steps m rs →
      ExpressionStepsStand n (.symbol operator.symbol place :: ps)
        (.mk operator place term :: steps) m rs

/-- A factor, then any number of steps. -/
inductive TermStands : Nat → List PlacedToken → TermTree → Nat → List PlacedToken → Prop
  | mk {n k m : Nat} {ps qs rs : List PlacedToken} {first : FactorTree} {steps : List TermStep} :
      FactorStands n ps first k qs → TermStepsStand k qs steps m rs →
      TermStands n ps (.mk ⟨n, m⟩ first steps) m rs

/-- Any number of steps: `*` or `/` and a factor. -/
inductive TermStepsStand :
    Nat → List PlacedToken → List TermStep → Nat → List PlacedToken → Prop
  | nil {n m : Nat} {ps : List PlacedToken} : n ≤ m → TermStepsStand n ps [] m ps
  | cons {n place start k m : Nat} {ps qs rs : List PlacedToken}
      {operator : MultiplicativeOperator} {factor : FactorTree} {steps : List TermStep} :
      n ≤ place → place < start → FactorStands start ps factor k qs →
      TermStepsStand k qs steps m rs →
      TermStepsStand n (.symbol operator.symbol place :: ps)
        (.mk operator place factor :: steps) m rs

/-- The four kinds of factors.  A call covers the bytes from its name to its closing
parenthesis, a reference those of its name and the blanks after it. -/
inductive FactorStands : Nat → List PlacedToken → FactorTree → Nat → List PlacedToken → Prop
  | call {n stop opening start k l closing : Nat} {ps qs rs : List PlacedToken} {name : Lexeme}
      {first : ExpressionTree} {others : List ExpressionTree} :
      name.span = ⟨n, stop⟩ → stop ≤ opening → n < opening → opening < start →
      ExpressionStands start ps first k qs →
      ArgumentsStand k qs others l (.symbol ')' closing :: rs) → l ≤ closing →
      FactorStands n (.name name :: .symbol '(' opening :: ps)
        (.call ⟨n, closing + 1⟩ name first others) (closing + 1) rs
  | reference {n k m : Nat} {qs : List PlacedToken} {name : Lexeme} :
      name.span = ⟨n, k⟩ → n < k → k ≤ m →
      (qs.map PlacedToken.token).head? ≠ some (.symbol '(') →
      FactorStands n (.name name :: qs) (.reference ⟨n, m⟩ name) m qs
  | constant {n m : Nat} {qs : List PlacedToken} {literal : Lexeme} :
      IsNumeral literal.text.toList → literal.span = ⟨n, m⟩ → n < m →
      FactorStands n (.literal literal :: qs) (.constant literal) m qs
  | group {n start k closing : Nat} {ps qs : List PlacedToken} {inner : ExpressionTree} :
      n < start → ExpressionStands start ps inner k (.symbol ')' closing :: qs) → k ≤ closing →
      FactorStands n (.symbol '(' n :: ps) (.group inner) (closing + 1) qs

/-- Any number of further arguments, a comma before each. -/
inductive ArgumentsStand :
    Nat → List PlacedToken → List ExpressionTree → Nat → List PlacedToken → Prop
  | nil {n m : Nat} {ps : List PlacedToken} : n ≤ m → ArgumentsStand n ps [] m ps
  | cons {n place start k m : Nat} {ps qs rs : List PlacedToken} {e : ExpressionTree}
      {es : List ExpressionTree} :
      n ≤ place → place < start → ExpressionStands start ps e k qs → ArgumentsStand k qs es m rs →
      ArgumentsStand n (.symbol ',' place :: ps) (e :: es) m rs

end

/-- An expression covers the offsets at which it stands. -/
theorem ExpressionStands.span_eq {t : ExpressionTree} {n m : Nat} {ps qs : List PlacedToken}
    (h : ExpressionStands n ps t m qs) : t.span = ⟨n, m⟩ := by
  cases h
  rfl

/-! ## Every part reads on -/

mutual

theorem ExpressionStands.lt : ∀ {t : ExpressionTree} {n m : Nat} {ps qs : List PlacedToken},
    ExpressionStands n ps t m qs → n < m
  | .mk _ _ _, _, _, _, _, .mk hfirst hsteps => Nat.lt_of_lt_of_le hfirst.lt hsteps.le

theorem ExpressionStepsStand.le :
    ∀ {steps : List ExpressionStep} {n m : Nat} {ps qs : List PlacedToken},
      ExpressionStepsStand n ps steps m qs → n ≤ m
  | [], _, _, _, _, .nil hle => hle
  | .mk _ _ _ :: _, _, _, _, _, .cons hplace hstart hterm hsteps => by
      have := hterm.lt
      have := hsteps.le
      omega

theorem TermStands.lt : ∀ {t : TermTree} {n m : Nat} {ps qs : List PlacedToken},
    TermStands n ps t m qs → n < m
  | .mk _ _ _, _, _, _, _, .mk hfirst hsteps => Nat.lt_of_lt_of_le hfirst.lt hsteps.le

theorem TermStepsStand.le : ∀ {steps : List TermStep} {n m : Nat} {ps qs : List PlacedToken},
    TermStepsStand n ps steps m qs → n ≤ m
  | [], _, _, _, _, .nil hle => hle
  | .mk _ _ _ :: _, _, _, _, _, .cons hplace hstart hfactor hsteps => by
      have := hfactor.lt
      have := hsteps.le
      omega

theorem FactorStands.lt : ∀ {x : FactorTree} {n m : Nat} {ps qs : List PlacedToken},
    FactorStands n ps x m qs → n < m
  | .call _ _ _ _, _, _, _, _, .call _ _ hopening hstart hfirst hothers hclosing => by
      have := hfirst.lt
      have := hothers.le
      omega
  | .reference _ _, _, _, _, _, .reference _ hlt hle _ => Nat.lt_of_lt_of_le hlt hle
  | .constant _, _, _, _, _, .constant _ _ hlt => hlt
  | .group _, _, _, _, _, .group hstart hinner hclosing => by
      have := hinner.lt
      omega

theorem ArgumentsStand.le :
    ∀ {es : List ExpressionTree} {n m : Nat} {ps qs : List PlacedToken},
      ArgumentsStand n ps es m qs → n ≤ m
  | [], _, _, _, _, .nil hle => hle
  | _ :: _, _, _, _, _, .cons hplace hstart he hes => by
      have := he.lt
      have := hes.le
      omega

end

/-! ## Without the places -/

mutual

theorem ExpressionStands.phrase : ∀ {t : ExpressionTree} {n m : Nat} {ps qs : List PlacedToken},
    ExpressionStands n ps t m qs →
    IsExpression (ps.map PlacedToken.token) t.phrase (qs.map PlacedToken.token)
  | .mk _ _ _, _, _, _, _, .mk hfirst hsteps => .mk hfirst.phrase hsteps.phrases

theorem ExpressionStepsStand.phrases :
    ∀ {steps : List ExpressionStep} {n m : Nat} {ps qs : List PlacedToken},
      ExpressionStepsStand n ps steps m qs →
      AreExpressionSteps (ps.map PlacedToken.token) (ExpressionTree.stepPhrases steps)
        (qs.map PlacedToken.token)
  | [], _, _, _, _, .nil _ => .nil
  | .mk _ _ _ :: _, _, _, _, _, .cons _ _ hterm hsteps => .cons hterm.phrase hsteps.phrases

theorem TermStands.phrase : ∀ {t : TermTree} {n m : Nat} {ps qs : List PlacedToken},
    TermStands n ps t m qs →
    IsTerm (ps.map PlacedToken.token) t.phrase (qs.map PlacedToken.token)
  | .mk _ _ _, _, _, _, _, .mk hfirst hsteps => .mk hfirst.phrase hsteps.phrases

theorem TermStepsStand.phrases :
    ∀ {steps : List TermStep} {n m : Nat} {ps qs : List PlacedToken},
      TermStepsStand n ps steps m qs →
      AreTermSteps (ps.map PlacedToken.token) (TermTree.stepPhrases steps)
        (qs.map PlacedToken.token)
  | [], _, _, _, _, .nil _ => .nil
  | .mk _ _ _ :: _, _, _, _, _, .cons _ _ hfactor hsteps => .cons hfactor.phrase hsteps.phrases

theorem FactorStands.phrase : ∀ {x : FactorTree} {n m : Nat} {ps qs : List PlacedToken},
    FactorStands n ps x m qs →
    IsFactor (ps.map PlacedToken.token) x.phrase (qs.map PlacedToken.token)
  | .call _ _ _ _, _, _, _, _, .call _ _ _ _ hfirst hothers _ => .call hfirst.phrase hothers.phrases
  | .reference _ _, _, _, _, _, .reference _ _ _ hhead => .reference hhead
  | .constant _, _, _, _, _, .constant _ _ _ => .constant
  | .group _, _, _, _, _, .group _ hinner _ => .group hinner.phrase

theorem ArgumentsStand.phrases :
    ∀ {es : List ExpressionTree} {n m : Nat} {ps qs : List PlacedToken},
      ArgumentsStand n ps es m qs →
      AreArguments (ps.map PlacedToken.token) (ExpressionTree.phrases es)
        (qs.map PlacedToken.token)
  | [], _, _, _, _, .nil _ => .nil
  | _ :: _, _, _, _, _, .cons _ _ he hes => .cons he.phrase hes.phrases

end

end MetricFormula.Grammar
