/-
  Proofs/Grammar/Construct: the literals and the calls of a formula, and the bytes that they
  cover.

  `constructs` finds them among the tokens alone: every literal, and every name that an
  opening parenthesis follows, up to the parenthesis that closes it.  A parse tree lists
  its own in the order in which they are interpreted, a call after its arguments
  (`ExpressionTree.constructs`).  Those are the same (`ExpressionStands.mem_constructs`),
  and the list is in the order in which they end in the text (`ExpressionStands.inOrder`).
-/
import MetricFormula.Proofs.Grammar.Place

set_option autoImplicit false

namespace MetricFormula.Grammar

/-- A literal or a call, and the bytes that it covers: those of the literal, or those from
the name to the closing parenthesis. -/
inductive Construct where
  | literal (text : String) (span : Span)
  | call (name : String) (span : Span)
  deriving DecidableEq, Repr

/-- The bytes that a construct covers. -/
def Construct.span : Construct → Span
  | literal _ span => span
  | call _ span => span

/-! ## Among the tokens -/

/-- The offset just past the parenthesis that closes the outermost of `depth + 1` open
ones. -/
def closing? : (depth : Nat) → List PlacedToken → Option Nat
  | _, [] => none
  | depth, p :: ps =>
      if p.token = .symbol '(' then closing? (depth + 1) ps
      else if p.token = .symbol ')' then
        match depth with
        | 0 => some p.span.stop
        | depth + 1 => closing? depth ps
      else closing? depth ps

/-- The construct that starts with a token, if one does. -/
def constructAt? (p : PlacedToken) (ps : List PlacedToken) : Option Construct :=
  match p.token with
  | .literal cs => some (.literal (String.ofList cs) p.span)
  | .name cs =>
      if (ps.map PlacedToken.token).head? = some (.symbol '(') then
        (closing? 0 ps.tail).map fun stop => .call (String.ofList cs) ⟨p.span.start, stop⟩
      else none
  | .symbol _ => none

/-- The constructs among tokens. -/
def constructs : List PlacedToken → List Construct
  | [] => []
  | p :: ps => (constructAt? p ps).toList ++ constructs ps

section Tokens

variable {depth n : Nat} {c : Char} {l : Lexeme} {p : PlacedToken} {ps : List PlacedToken}

@[simp] theorem closing?_opening :
    closing? depth (.symbol '(' n :: ps) = closing? (depth + 1) ps := rfl

@[simp] theorem closing?_closing :
    closing? (depth + 1) (.symbol ')' n :: ps) = closing? depth ps := rfl

theorem closing?_outermost : closing? 0 (.symbol ')' n :: ps) = some (n + 1) := rfl

theorem closing?_cons (hopen : p.token ≠ .symbol '(') (hclose : p.token ≠ .symbol ')') :
    closing? depth (p :: ps) = closing? depth ps := by
  rw [closing?.eq_def]
  simp only [if_neg hopen, if_neg hclose]

@[simp] theorem constructs_symbol : constructs (.symbol c n :: ps) = constructs ps := rfl

@[simp] theorem constructs_literal :
    constructs (.literal l :: ps) = .literal l.text l.span :: constructs ps := by
  have hat : constructAt? (.literal l) ps = some (.literal l.text l.span) := by
    simp [constructAt?, PlacedToken.literal]
  rw [constructs, hat]
  rfl

theorem constructs_reference (h : (ps.map PlacedToken.token).head? ≠ some (.symbol '(')) :
    constructs (.name l :: ps) = constructs ps := by
  have hat : constructAt? (.name l) ps = none := if_neg h
  rw [constructs, hat]
  rfl

theorem constructs_call {stop : Nat} (h : closing? 0 ps = some stop) :
    constructs (.name l :: .symbol '(' n :: ps) =
      .call l.text ⟨l.span.start, stop⟩ :: constructs ps := by
  have hat : constructAt? (.name l) (.symbol '(' n :: ps) =
      some (.call l.text ⟨l.span.start, stop⟩) := by
    simp [constructAt?, PlacedToken.name, PlacedToken.symbol, h]
  rw [constructs, hat]
  rfl

end Tokens

/-! ## Of a parse tree -/

mutual

/-- The constructs of an expression. -/
def ExpressionTree.constructs : ExpressionTree → List Construct
  | .mk _ first steps => first.constructs ++ ExpressionTree.stepConstructs steps

/-- The constructs of steps. -/
def ExpressionTree.stepConstructs : List ExpressionStep → List Construct
  | [] => []
  | .mk _ _ term :: steps => term.constructs ++ ExpressionTree.stepConstructs steps

/-- The constructs of a term. -/
def TermTree.constructs : TermTree → List Construct
  | .mk _ first steps => first.constructs ++ TermTree.stepConstructs steps

/-- The constructs of steps. -/
def TermTree.stepConstructs : List TermStep → List Construct
  | [] => []
  | .mk _ _ factor :: steps => factor.constructs ++ TermTree.stepConstructs steps

/-- The constructs of a factor.  A call comes after those in its arguments. -/
def FactorTree.constructs : FactorTree → List Construct
  | .call span name first others =>
      first.constructs ++ (ExpressionTree.argumentConstructs others ++ [.call name.text span])
  | .reference _ _ => []
  | .constant literal => [.literal literal.text literal.span]
  | .group inner => inner.constructs

/-- The constructs of arguments. -/
def ExpressionTree.argumentConstructs : List ExpressionTree → List Construct
  | [] => []
  | e :: es => e.constructs ++ ExpressionTree.argumentConstructs es

end

/-! ## The parentheses of a part are closed in it -/

theorem additive_not_parenthesis (operator : AdditiveOperator) :
    Token.symbol operator.symbol ≠ .symbol '(' ∧ Token.symbol operator.symbol ≠ .symbol ')' := by
  cases operator <;> decide

theorem multiplicative_not_parenthesis (operator : MultiplicativeOperator) :
    Token.symbol operator.symbol ≠ .symbol '(' ∧ Token.symbol operator.symbol ≠ .symbol ')' := by
  cases operator <;> decide

mutual

theorem ExpressionStands.closing?_eq :
    ∀ {t : ExpressionTree} {n m : Nat} {ps qs : List PlacedToken},
      ExpressionStands n ps t m qs → ∀ depth, closing? depth ps = closing? depth qs
  | .mk _ _ _, _, _, _, _, .mk hfirst hsteps => by
      intro depth
      rw [hfirst.closing?_eq, hsteps.closing?_eq]

theorem ExpressionStepsStand.closing?_eq :
    ∀ {steps : List ExpressionStep} {n m : Nat} {ps qs : List PlacedToken},
      ExpressionStepsStand n ps steps m qs → ∀ depth, closing? depth ps = closing? depth qs
  | [], _, _, _, _, .nil _ => fun _ => rfl
  | .mk operator _ _ :: _, _, _, _, _, .cons _ _ hterm hsteps => by
      intro depth
      obtain ⟨hopen, hclose⟩ := additive_not_parenthesis operator
      rw [closing?_cons hopen hclose, hterm.closing?_eq, hsteps.closing?_eq]

theorem TermStands.closing?_eq : ∀ {t : TermTree} {n m : Nat} {ps qs : List PlacedToken},
    TermStands n ps t m qs → ∀ depth, closing? depth ps = closing? depth qs
  | .mk _ _ _, _, _, _, _, .mk hfirst hsteps => by
      intro depth
      rw [hfirst.closing?_eq, hsteps.closing?_eq]

theorem TermStepsStand.closing?_eq :
    ∀ {steps : List TermStep} {n m : Nat} {ps qs : List PlacedToken},
      TermStepsStand n ps steps m qs → ∀ depth, closing? depth ps = closing? depth qs
  | [], _, _, _, _, .nil _ => fun _ => rfl
  | .mk operator _ _ :: _, _, _, _, _, .cons _ _ hfactor hsteps => by
      intro depth
      obtain ⟨hopen, hclose⟩ := multiplicative_not_parenthesis operator
      rw [closing?_cons hopen hclose, hfactor.closing?_eq, hsteps.closing?_eq]

theorem FactorStands.closing?_eq : ∀ {x : FactorTree} {n m : Nat} {ps qs : List PlacedToken},
    FactorStands n ps x m qs → ∀ depth, closing? depth ps = closing? depth qs
  | .call _ _ _ _, _, _, _, _, .call _ _ _ _ hfirst hothers _ => by
      intro depth
      rw [closing?_cons (by simp [PlacedToken.name]) (by simp [PlacedToken.name]),
        closing?_opening, hfirst.closing?_eq, hothers.closing?_eq, closing?_closing]
  | .reference _ _, _, _, _, _, .reference _ _ _ _ =>
      fun _ => closing?_cons (by simp [PlacedToken.name]) (by simp [PlacedToken.name])
  | .constant _, _, _, _, _, .constant _ _ _ =>
      fun _ => closing?_cons (by simp [PlacedToken.literal]) (by simp [PlacedToken.literal])
  | .group _, _, _, _, _, .group _ hinner _ => by
      intro depth
      rw [closing?_opening, hinner.closing?_eq, closing?_closing]

theorem ArgumentsStand.closing?_eq :
    ∀ {es : List ExpressionTree} {n m : Nat} {ps qs : List PlacedToken},
      ArgumentsStand n ps es m qs → ∀ depth, closing? depth ps = closing? depth qs
  | [], _, _, _, _, .nil _ => fun _ => rfl
  | _ :: _, _, _, _, _, .cons _ _ he hes => by
      intro depth
      rw [closing?_cons (by simp [PlacedToken.symbol]) (by simp [PlacedToken.symbol]),
        he.closing?_eq, hes.closing?_eq]

end

/-! ## The tokens and the tree have the same constructs -/

mutual

theorem ExpressionStands.mem_constructs :
    ∀ {t : ExpressionTree} {n m : Nat} {ps qs : List PlacedToken},
      ExpressionStands n ps t m qs →
      ∀ c, c ∈ constructs ps ↔ c ∈ t.constructs ∨ c ∈ constructs qs
  | .mk _ _ _, _, _, _, _, .mk hfirst hsteps => by
      intro c
      rw [hfirst.mem_constructs, hsteps.mem_constructs, ExpressionTree.constructs,
        List.mem_append, or_assoc]

theorem ExpressionStepsStand.mem_constructs :
    ∀ {steps : List ExpressionStep} {n m : Nat} {ps qs : List PlacedToken},
      ExpressionStepsStand n ps steps m qs →
      ∀ c, c ∈ constructs ps ↔ c ∈ ExpressionTree.stepConstructs steps ∨ c ∈ constructs qs
  | [], _, _, _, _, .nil _ => by simp [ExpressionTree.stepConstructs]
  | .mk _ _ _ :: _, _, _, _, _, .cons _ _ hterm hsteps => by
      intro c
      rw [constructs_symbol, hterm.mem_constructs, hsteps.mem_constructs,
        ExpressionTree.stepConstructs, List.mem_append, or_assoc]

theorem TermStands.mem_constructs : ∀ {t : TermTree} {n m : Nat} {ps qs : List PlacedToken},
    TermStands n ps t m qs → ∀ c, c ∈ constructs ps ↔ c ∈ t.constructs ∨ c ∈ constructs qs
  | .mk _ _ _, _, _, _, _, .mk hfirst hsteps => by
      intro c
      rw [hfirst.mem_constructs, hsteps.mem_constructs, TermTree.constructs, List.mem_append,
        or_assoc]

theorem TermStepsStand.mem_constructs :
    ∀ {steps : List TermStep} {n m : Nat} {ps qs : List PlacedToken},
      TermStepsStand n ps steps m qs →
      ∀ c, c ∈ constructs ps ↔ c ∈ TermTree.stepConstructs steps ∨ c ∈ constructs qs
  | [], _, _, _, _, .nil _ => by simp [TermTree.stepConstructs]
  | .mk _ _ _ :: _, _, _, _, _, .cons _ _ hfactor hsteps => by
      intro c
      rw [constructs_symbol, hfactor.mem_constructs, hsteps.mem_constructs,
        TermTree.stepConstructs, List.mem_append, or_assoc]

theorem FactorStands.mem_constructs :
    ∀ {x : FactorTree} {n m : Nat} {ps qs : List PlacedToken},
      FactorStands n ps x m qs →
      ∀ c, c ∈ constructs ps ↔ c ∈ x.constructs ∨ c ∈ constructs qs
  | .call _ _ _ _, _, _, _, _, .call hspan _ _ _ hfirst hothers _ => by
      intro c
      -- The arguments close their parentheses, so the next one closes the call.
      have hclosing := (hfirst.closing?_eq 0).trans
        ((hothers.closing?_eq 0).trans closing?_outermost)
      rw [constructs_call hclosing, hspan, List.mem_cons, hfirst.mem_constructs,
        hothers.mem_constructs, constructs_symbol, FactorTree.constructs, List.mem_append,
        List.mem_append, List.mem_singleton]
      grind
  | .reference _ _, _, _, _, _, .reference _ _ _ hhead => by
      intro c
      rw [constructs_reference hhead, FactorTree.constructs]
      simp
  | .constant _, _, _, _, _, .constant _ _ _ => by
      intro c
      rw [constructs_literal, FactorTree.constructs, List.mem_cons, List.mem_singleton]
  | .group _, _, _, _, _, .group _ hinner _ => by
      intro c
      rw [constructs_symbol, hinner.mem_constructs, constructs_symbol, FactorTree.constructs]

theorem ArgumentsStand.mem_constructs :
    ∀ {es : List ExpressionTree} {n m : Nat} {ps qs : List PlacedToken},
      ArgumentsStand n ps es m qs →
      ∀ c, c ∈ constructs ps ↔ c ∈ ExpressionTree.argumentConstructs es ∨ c ∈ constructs qs
  | [], _, _, _, _, .nil _ => by simp [ExpressionTree.argumentConstructs]
  | _ :: _, _, _, _, _, .cons _ _ he hes => by
      intro c
      rw [constructs_symbol, he.mem_constructs, hes.mem_constructs,
        ExpressionTree.argumentConstructs, List.mem_append, or_assoc]

end

/-! ## The order in the text -/

/-- A construct before another: a literal starts where the one before has ended, and a call
ends later, since it may enclose the one before. -/
def Construct.Precedes (c : Construct) : Construct → Prop
  | literal _ span => c.span.stop ≤ span.start
  | call _ span => c.span.stop < span.stop

/-- Constructs between two offsets, in the order in which they end, whose literals are
numerals. -/
structure InOrder (n m : Nat) (cs : List Construct) : Prop where
  numeral : ∀ text span, .literal text span ∈ cs → IsNumeral text.toList
  within : ∀ c ∈ cs, n ≤ c.span.start ∧ c.span.start < c.span.stop ∧ c.span.stop ≤ m
  precedes : cs.Pairwise Construct.Precedes

namespace InOrder

variable {n k l m : Nat} {cs ds : List Construct}

theorem nil : InOrder n m [] where
  numeral := by simp
  within := by simp
  precedes := .nil

theorem literal {text : String} (htext : IsNumeral text.toList) (hlt : n < m) :
    InOrder n m [.literal text ⟨n, m⟩] where
  numeral := by
    intro text' span' hmem
    obtain ⟨rfl, -⟩ := Construct.literal.inj (List.mem_singleton.mp hmem)
    exact htext
  within := by
    intro c hc
    obtain rfl := List.mem_singleton.mp hc
    exact ⟨Nat.le_refl _, hlt, Nat.le_refl _⟩
  precedes := List.pairwise_singleton _ _

theorem mono (h : InOrder k l cs) (hn : n ≤ k) (hm : l ≤ m) : InOrder n m cs where
  numeral := h.numeral
  within := by
    intro c hc
    obtain ⟨hstart, hlt, hstop⟩ := h.within c hc
    exact ⟨Nat.le_trans hn hstart, hlt, Nat.le_trans hstop hm⟩
  precedes := h.precedes

/-- Constructs before an offset, and constructs after it. -/
theorem append (hcs : InOrder n k cs) (hds : InOrder k m ds) (hn : n ≤ k) (hm : k ≤ m) :
    InOrder n m (cs ++ ds) where
  numeral := by
    intro text span hmem
    rcases List.mem_append.mp hmem with hmem | hmem
    · exact hcs.numeral text span hmem
    · exact hds.numeral text span hmem
  within := by
    intro c hc
    rcases List.mem_append.mp hc with hc | hc
    · exact (hcs.mono (Nat.le_refl n) hm).within c hc
    · exact (hds.mono hn (Nat.le_refl m)).within c hc
  precedes := by
    refine List.pairwise_append.mpr ⟨hcs.precedes, hds.precedes, ?_⟩
    intro c hc d hd
    have hstop := (hcs.within c hc).2.2
    obtain ⟨hstart, hlt, _⟩ := hds.within d hd
    cases d with
    | literal text span => exact Nat.le_trans hstop hstart
    | call name span => exact Nat.lt_of_le_of_lt (Nat.le_trans hstop hstart) hlt

/-- Constructs and a call that encloses them. -/
theorem enclose (hcs : InOrder n m cs) (hle : n ≤ m) (name : String) :
    InOrder n (m + 1) (cs ++ [.call name ⟨n, m + 1⟩]) where
  numeral := by
    intro text span hmem
    refine hcs.numeral text span ?_
    simpa using hmem
  within := by
    intro c hc
    rcases List.mem_append.mp hc with hc | hc
    · exact (hcs.mono (Nat.le_refl n) (Nat.le_succ m)).within c hc
    · obtain rfl := List.mem_singleton.mp hc
      exact ⟨Nat.le_refl n, Nat.lt_succ_of_le hle, Nat.le_refl _⟩
  precedes := by
    refine List.pairwise_append.mpr ⟨hcs.precedes, List.pairwise_singleton _ _, ?_⟩
    intro c hc d hd
    obtain rfl := List.mem_singleton.mp hd
    exact Nat.lt_succ_of_le (hcs.within c hc).2.2

/-- Each construct ends before those after it. -/
theorem ascending (h : InOrder n m cs) : cs.Pairwise fun c d => c.span.stop < d.span.stop := by
  refine h.precedes.imp_of_mem ?_
  intro c d _ hd hprecedes
  cases d with
  | literal text span => exact Nat.lt_of_le_of_lt hprecedes (h.within _ hd).2.1
  | call name span => exact hprecedes

end InOrder

mutual

/-- The constructs of a parse tree are listed in the order in which they end. -/
theorem ExpressionStands.inOrder :
    ∀ {t : ExpressionTree} {n m : Nat} {ps qs : List PlacedToken},
      ExpressionStands n ps t m qs → InOrder n m t.constructs
  | .mk _ _ _, _, _, _, _, .mk hfirst hsteps =>
      hfirst.inOrder.append hsteps.inOrder (Nat.le_of_lt hfirst.lt) hsteps.le

theorem ExpressionStepsStand.inOrder :
    ∀ {steps : List ExpressionStep} {n m : Nat} {ps qs : List PlacedToken},
      ExpressionStepsStand n ps steps m qs → InOrder n m (ExpressionTree.stepConstructs steps)
  | [], _, _, _, _, .nil _ => .nil
  | .mk _ _ _ :: _, _, _, _, _, .cons hplace hstart hterm hsteps => by
      have hle := Nat.le_of_lt (Nat.lt_of_le_of_lt hplace hstart)
      exact (hterm.inOrder.append hsteps.inOrder (Nat.le_of_lt hterm.lt) hsteps.le).mono hle
        (Nat.le_refl _)

theorem TermStands.inOrder : ∀ {t : TermTree} {n m : Nat} {ps qs : List PlacedToken},
    TermStands n ps t m qs → InOrder n m t.constructs
  | .mk _ _ _, _, _, _, _, .mk hfirst hsteps =>
      hfirst.inOrder.append hsteps.inOrder (Nat.le_of_lt hfirst.lt) hsteps.le

theorem TermStepsStand.inOrder :
    ∀ {steps : List TermStep} {n m : Nat} {ps qs : List PlacedToken},
      TermStepsStand n ps steps m qs → InOrder n m (TermTree.stepConstructs steps)
  | [], _, _, _, _, .nil _ => .nil
  | .mk _ _ _ :: _, _, _, _, _, .cons hplace hstart hfactor hsteps => by
      have hle := Nat.le_of_lt (Nat.lt_of_le_of_lt hplace hstart)
      exact (hfactor.inOrder.append hsteps.inOrder (Nat.le_of_lt hfactor.lt) hsteps.le).mono hle
        (Nat.le_refl _)

theorem FactorStands.inOrder : ∀ {x : FactorTree} {n m : Nat} {ps qs : List PlacedToken},
    FactorStands n ps x m qs → InOrder n m x.constructs
  | .call _ name _ _, n, _, _, _, .call _ _ hopening hstart hfirst hothers hclosing => by
      have hle := Nat.le_of_lt (Nat.lt_trans hopening hstart)
      have hinside := (hfirst.inOrder.append hothers.inOrder (Nat.le_of_lt hfirst.lt)
        hothers.le).mono hle hclosing
      have hlt := hfirst.lt
      have hothersLe := hothers.le
      rw [FactorTree.constructs, ← List.append_assoc]
      exact hinside.enclose (by omega) name.text
  | .reference _ _, _, _, _, _, .reference _ _ _ _ => .nil
  | .constant _, _, _, _, _, .constant hnumeral hspan hlt => by
      rw [FactorTree.constructs, hspan]
      exact .literal hnumeral hlt
  | .group _, _, _, _, _, .group hstart hinner hclosing =>
      hinner.inOrder.mono (Nat.le_of_lt hstart) (Nat.le_succ_of_le hclosing)

theorem ArgumentsStand.inOrder :
    ∀ {es : List ExpressionTree} {n m : Nat} {ps qs : List PlacedToken},
      ArgumentsStand n ps es m qs → InOrder n m (ExpressionTree.argumentConstructs es)
  | [], _, _, _, _, .nil _ => .nil
  | _ :: _, _, _, _, _, .cons hplace hstart he hes => by
      have hle := Nat.le_of_lt (Nat.lt_of_le_of_lt hplace hstart)
      exact (he.inOrder.append hes.inOrder (Nat.le_of_lt he.lt) hes.le).mono hle (Nat.le_refl _)

end

end MetricFormula.Grammar
