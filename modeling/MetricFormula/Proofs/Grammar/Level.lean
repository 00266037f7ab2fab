/-
  Proofs/Grammar/Level: how many levels of expressions a matcher starts.

  `Room limit depth c` says that a text has room for the parentheses from the place `c` on,
  where `depth` of them are open: the look over the text finds no excess there.  A matcher
  enters a level by reading an opening parenthesis and leaves it by reading a closing one,
  so it has room at every place that it comes to, on branches that it gives back as well.

  `Alike limit d e p q` says that `p` and `q` cannot be told apart where there is room for `d`
  open parentheses, and stop where there is room for `e`.  Two matchers with enough levels
  are alike whatever stands below their last levels (`expressionWithin_alike`): what never
  makes a difference, neither to the result nor to the frontier, is never started.
-/
import MetricFormula.Proofs.Grammar.Matcher
import MetricFormula.Proofs.Nesting

set_option autoImplicit false

namespace MetricFormula.Nesting

variable {limit limit' depth offset : Nat} {cs : List Char}

/-- A text that fits a limit fits every greater one. -/
theorem excess?_mono (h : excess? limit depth offset cs = none) (hle : limit ≤ limit') :
    excess? limit' depth offset cs = none := by
  induction cs generalizing depth offset with
  | nil => rfl
  | cons c cs ih =>
      rw [excess?] at h ⊢
      by_cases hopen : c = '('
      · rw [if_pos hopen] at h ⊢
        split at h
        · simp at h
        · rw [if_neg (by omega)]
          exact ih h
      · rw [if_neg hopen] at h ⊢
        by_cases hclose : c = ')'
        · rw [if_pos hclose] at h ⊢
          exact ih h
        · rw [if_neg hclose] at h ⊢
          exact ih h

/-- A text nests no more levels than it has opening parentheses. -/
theorem excess?_eq_none_of_count (h : depth + cs.count '(' < limit) :
    excess? limit depth offset cs = none := by
  induction cs generalizing depth offset with
  | nil => rfl
  | cons c cs ih =>
      rw [List.count_cons] at h
      rw [excess?]
      by_cases hopen : c = '('
      · simp only [hopen, beq_self_eq_true, if_true] at h
        rw [if_pos hopen, if_neg (by omega)]
        exact ih (by omega)
      · rw [if_neg hopen]
        by_cases hclose : c = ')'
        · rw [if_pos hclose]
          exact ih (by omega)
        · rw [if_neg hclose]
          exact ih (by omega)

end MetricFormula.Nesting

namespace MetricFormula.Grammar

open Matcher Nesting

/-! ## Room for parentheses -/

/-- Where `depth` parentheses are open, no parenthesis of the rest of the text makes more than
`limit` levels. -/
structure Room (limit depth : Nat) (c : Cursor) : Prop where
  lt : depth < limit
  fits : excess? limit depth c.offset c.rest = none

section Room

variable {limit depth : Nat} {c : Cursor} {read rest : List Char}

theorem Room.past (h : Room limit depth c) (hrest : c.rest = read ++ rest)
    (hread : ∀ d ∈ read, d ≠ '(' ∧ d ≠ ')') : Room limit depth (c.past read rest) where
  lt := h.lt
  fits := by
    have hfits := h.fits
    rwa [hrest, excess?_append hread] at hfits

theorem Room.opening (h : Room limit depth c) (hrest : c.rest = '(' :: rest) :
    Room limit (depth + 1) (c.past ['('] rest) := by
  have hfits := h.fits
  rw [hrest, excess?, if_pos rfl] at hfits
  split at hfits
  · simp at hfits
  · exact ⟨by omega, hfits⟩

theorem Room.closing (h : Room limit (depth + 1) c) (hrest : c.rest = ')' :: rest) :
    Room limit depth (c.past [')'] rest) := by
  have hfits := h.fits
  rw [hrest, excess?, if_neg (by decide), if_pos rfl] at hfits
  exact ⟨Nat.lt_of_succ_lt h.lt, hfits⟩

end Room

/-! ## Matchers that cannot be told apart -/

/-- Wherever there is room for `d` open parentheses, `p` and `q` do the same from every
frontier, and they stop where there is room for `e`. -/
structure Alike {α : Type} (limit d e : Nat) (p q : Matcher α) : Prop where
  run : ∀ {c : Cursor}, Room limit d c → ∀ f, p.run c f = q.run c f
  stops : ∀ {c : Cursor} {a : α} {c' : Cursor}, Room limit d c → Gives p c a c' →
    Room limit e c'

namespace Alike

variable {α β : Type} {limit d e g : Nat} {p p' q q' : Matcher α} {k k' : α → Matcher β}

theorem pure (a : α) : Alike limit d d (Pure.pure a : Matcher α) (Pure.pure a) where
  run _ _ := rfl
  stops hc h := by
    obtain ⟨-, rfl⟩ := h.of_pure
    exact hc

theorem bind (hp : Alike limit d e p p') (hk : ∀ a, Alike limit e g (k a) (k' a)) :
    Alike limit d g (p >>= k) (p' >>= k') where
  run {c} hc f := by
    rw [run_bind, run_bind, ← hp.run hc f]
    rcases hrun : p.run c f with ⟨_ | ⟨a, c'⟩, f'⟩
    · rfl
    · exact (hk a).run (hp.stops hc ⟨f, f', hrun⟩) f'
  stops hc h := by
    obtain ⟨a, c₁, ha, h⟩ := h.of_bind
    exact (hk a).stops (hp.stops hc ha) h

/-- The second branch starts where the first one did, so what the first one has read is of no
account. -/
theorem orElse (hp : Alike limit d e p p') (hq : Alike limit d e q q') :
    Alike limit d e (p <|> q) (p' <|> q') where
  run {c} hc f := by
    rw [run_orElse, run_orElse, ← hp.run hc f]
    rcases p.run c f with ⟨_ | r, f'⟩
    · exact hq.run hc f'
    · rfl
  stops hc h := by
    rcases h.of_orElse with h | h
    · exact hp.stops hc h
    · exact hq.stops hc h

theorem named (hp : Alike limit d e p p') (rule : Rule) :
    Alike limit d e (Matcher.named rule p) (Matcher.named rule p') where
  run hc f := by rw [run_named, run_named, hp.run hc f]
  stops hc h := hp.stops hc h.of_named

theorem atMost (hp : Alike limit d d p p') : ∀ n, Alike limit d d (p.atMost n) (p'.atMost n)
  | 0 => .pure []
  | n + 1 => (hp.bind fun a => (hp.atMost n).bind fun as => .pure (a :: as)).orElse (.pure [])

theorem many (hp : Alike limit d d p p') : Alike limit d d p.many p'.many where
  run {c} hc f := (hp.atMost (c.rest.length + 1)).run hc f
  stops {c _ _} hc h := (hp.atMost (c.rest.length + 1)).stops hc h

/-- A matcher that reads no parentheses. -/
theorem of_plain (h : ∀ {c : Cursor} {a : α} {c' : Cursor}, Gives p c a c' →
    ∃ read rest, c.rest = read ++ rest ∧ c' = c.past read rest ∧
      ∀ x ∈ read, x ≠ '(' ∧ x ≠ ')') : Alike limit d d p p where
  run _ _ := rfl
  stops hc hp := by
    obtain ⟨read, rest, hrest, rfl, hread⟩ := h hp
    exact hc.past hrest hread

end Alike

/-! ## Words -/

section Words

variable {limit d : Nat}

theorem alike_offset : Alike limit d d offset offset :=
  .of_plain fun h => ⟨[], _, rfl, h.of_offset.2, by simp⟩

theorem alike_notAhead (x : Char) : Alike limit d d (notAhead x) (notAhead x) :=
  .of_plain fun h => ⟨[], _, rfl, h.of_notAhead.1, by simp⟩

theorem alike_gap : Alike limit d d gap gap := by
  refine .of_plain fun h => ⟨_, _, List.takeWhile_append_dropWhile.symm, h.of_gap, ?_⟩
  intro x hx
  have hgap := List.all_eq_true.mp List.all_takeWhile x hx
  constructor <;> rintro rfl <;> simp [Scan.isGap] at hgap

theorem alike_char {x : Char} (hopen : x ≠ '(') (hclose : x ≠ ')') :
    Alike limit d d (char x) (char x) := by
  refine .of_plain fun h => ?_
  obtain ⟨rest, hrest, rfl⟩ := h.of_char
  refine ⟨[x], rest, hrest, rfl, fun y hy => ?_⟩
  rw [List.mem_singleton.mp hy]
  exact ⟨hopen, hclose⟩

theorem alike_opening : Alike limit d (d + 1) (char '(') (char '(') where
  run _ _ := rfl
  stops hc h := by
    obtain ⟨rest, hrest, rfl⟩ := h.of_char
    exact hc.opening hrest

theorem alike_closing : Alike limit (d + 1) d (char ')') (char ')') where
  run _ _ := rfl
  stops hc h := by
    obtain ⟨rest, hrest, rfl⟩ := h.of_char
    exact hc.closing hrest

theorem alike_identifier : Alike limit d d identifier identifier := by
  refine .of_plain fun h => ?_
  obtain ⟨rest, hsplit, rfl, -⟩ := h.of_named.of_lexeme
  exact ⟨_, rest, (Scan.identifier_append hsplit).symm, rfl,
    not_parenthesis_of_mem (identifier_iff_munches.mp hsplit).valid (by simp)⟩

theorem alike_constant : Alike limit d d constant constant := by
  refine .of_plain fun h => ?_
  obtain ⟨rest, hsplit, rfl, -⟩ := h.of_named.of_lexeme
  exact ⟨_, rest, (Scan.constant_append hsplit).symm, rfl,
    not_parenthesis_of_mem (constant_iff_munches.mp hsplit).valid (by simp)⟩

theorem alike_endOfInput : Alike limit d d endOfInput endOfInput :=
  .of_plain fun h => ⟨[], _, rfl, h.of_named.of_atEnd.1, by simp⟩

theorem alike_additiveSymbol (operator : AdditiveOperator) :
    Alike limit d d (additiveSymbol operator) (additiveSymbol operator) := by
  have hsymbol : operator.symbol ≠ '(' ∧ operator.symbol ≠ ')' := by cases operator <;> decide
  exact (alike_offset.bind fun place =>
    (alike_char hsymbol.1 hsymbol.2).bind fun _ => .pure (operator, place)).named _

theorem alike_multiplicativeSymbol (operator : MultiplicativeOperator) :
    Alike limit d d (multiplicativeSymbol operator) (multiplicativeSymbol operator) := by
  have hsymbol : operator.symbol ≠ '(' ∧ operator.symbol ≠ ')' := by cases operator <;> decide
  exact (alike_offset.bind fun place =>
    (alike_char hsymbol.1 hsymbol.2).bind fun _ => .pure (operator, place)).named _

variable {α β : Type} {p p' : Matcher α}

theorem Alike.spanned (hp : Alike limit d d p p') :
    Alike limit d d (Grammar.spanned p) (Grammar.spanned p') :=
  alike_offset.bind fun start => hp.bind fun a => alike_offset.bind fun stop =>
    .pure (Span.mk start stop, a)

/-- A rule that keeps the range that it matches. -/
theorem Alike.rule {k k' : Span × α → Matcher β} (rule : Rule) (hp : Alike limit d d p p')
    (hk : ∀ s, Alike limit d d (k s) (k' s)) :
    Alike limit d d (Matcher.named rule (Grammar.spanned p >>= k))
      (Matcher.named rule (Grammar.spanned p' >>= k')) :=
  (hp.spanned.bind hk).named rule

theorem Alike.repeated (hp : Alike limit d d p p') :
    Alike limit d d (Grammar.repeated p) (Grammar.repeated p') :=
  alike_gap.bind fun _ =>
    (hp.bind fun a => (alike_gap.bind fun _ => hp).many.bind fun as => .pure (a :: as)).orElse
      (.pure [])

theorem alike_reference : Alike limit d d reference reference := by
  refine Alike.rule .reference ?_ ?_
  · exact alike_identifier.bind fun name => alike_gap.bind fun _ =>
      (alike_notAhead '(').bind fun _ => .pure name
  · rintro ⟨span, name⟩
    exact .pure _

end Words

/-! ## One level of nesting -/

section Level

variable {limit d : Nat} {inner inner' : Matcher ExpressionTree}
  (hinner : Alike limit (d + 1) (d + 1) inner inner')
include hinner

theorem groupedOver_alike : Alike limit d d (groupedOver inner) (groupedOver inner') :=
  alike_opening.bind fun _ => alike_gap.bind fun _ => hinner.bind fun e =>
    alike_gap.bind fun _ => alike_closing.bind fun _ => .pure (FactorTree.group e)

theorem argumentOver_alike :
    Alike limit (d + 1) (d + 1) (argumentOver inner) (argumentOver inner') :=
  (alike_char (by decide) (by decide)).bind fun _ => alike_gap.bind fun _ => hinner

theorem callOver_alike : Alike limit d d (callOver inner) (callOver inner') := by
  refine Alike.rule .call ?_ ?_
  · exact alike_identifier.bind fun name => alike_gap.bind fun _ => alike_opening.bind fun _ =>
      alike_gap.bind fun _ => hinner.bind fun first =>
      (argumentOver_alike hinner).repeated.bind fun others => alike_gap.bind fun _ =>
      alike_closing.bind fun _ => .pure (name, first, others)
  · rintro ⟨span, name, first, others⟩
    exact .pure _

theorem factorOver_alike : Alike limit d d (factorOver inner) (factorOver inner') :=
  (callOver_alike hinner).orElse (alike_reference.orElse
    ((alike_constant.bind fun literal => .pure (FactorTree.constant literal)).orElse
      (groupedOver_alike hinner)))

theorem termStepOver_alike : Alike limit d d (termStepOver inner) (termStepOver inner') := by
  refine Alike.bind (e := d)
    ((alike_multiplicativeSymbol .times).orElse (alike_multiplicativeSymbol .dividedBy)) ?_
  rintro ⟨operator, place⟩
  exact alike_gap.bind fun _ => (factorOver_alike hinner).bind fun factor => .pure _

theorem termOver_alike : Alike limit d d (termOver inner) (termOver inner') := by
  refine Alike.rule .term ?_ ?_
  · exact (factorOver_alike hinner).bind fun first =>
      (termStepOver_alike hinner).repeated.bind fun steps => .pure (first, steps)
  · rintro ⟨span, first, steps⟩
    exact .pure _

theorem expressionStepOver_alike :
    Alike limit d d (expressionStepOver inner) (expressionStepOver inner') := by
  refine Alike.bind (e := d) ((alike_additiveSymbol .plus).orElse (alike_additiveSymbol .minus)) ?_
  rintro ⟨operator, place⟩
  exact alike_gap.bind fun _ => (termOver_alike hinner).bind fun term => .pure _

theorem expressionOver_alike : Alike limit d d (expressionOver inner) (expressionOver inner') := by
  refine Alike.rule .expression ?_ ?_
  · exact (termOver_alike hinner).bind fun first =>
      (expressionStepOver_alike hinner).repeated.bind fun steps => .pure (first, steps)
  · rintro ⟨span, first, steps⟩
    exact .pure _

end Level

/-! ## All levels -/

/-- Where `d` parentheses are open, matchers with levels for all others are alike. -/
theorem expressionWithin_alike {limit d m n : Nat} (bottom bottom' : Matcher ExpressionTree)
    (hm : limit ≤ d + m) (hn : limit ≤ d + n) :
    Alike limit d d (expressionWithin bottom m) (expressionWithin bottom' n) := by
  induction m generalizing d n with
  | zero =>
      -- There is no room for so many open parentheses.
      exact ⟨fun hc => absurd hc.lt (by omega), fun hc => absurd hc.lt (by omega)⟩
  | succ m ih =>
      cases n with
      | zero => exact ⟨fun hc => absurd hc.lt (by omega), fun hc => absurd hc.lt (by omega)⟩
      | succ n => exact expressionOver_alike (ih (by omega) (by omega))

theorem run_expression (c : Cursor) (f : Frontier) :
    expression.run c f = (expressionWithin fail (c.openings + 1)).run c f := by
  rw [expression, run_nested, expressionWithin]

/-- As many levels as the text may nest are as good as the levels that its parentheses
ask for. -/
theorem expression_alike {limit : Nat} (bottom : Matcher ExpressionTree) :
    Alike limit 0 0 (expressionWithin bottom limit) expression := by
  have halike : ∀ {c : Cursor}, Room limit 0 c → ∃ l ≤ limit, Room l 0 c ∧
      Alike l 0 0 (expressionWithin bottom limit) (expressionWithin fail (c.openings + 1)) := by
    intro c hc
    by_cases hle : limit ≤ c.openings + 1
    · exact ⟨limit, Nat.le_refl _, hc, expressionWithin_alike _ _ (by omega) (by omega)⟩
    · refine ⟨c.openings + 1, by omega, ⟨Nat.succ_pos _, excess?_eq_none_of_count ?_⟩,
        expressionWithin_alike _ _ (by omega) (by omega)⟩
      rw [Nat.zero_add]
      exact Nat.lt_succ_self _
  constructor
  · intro c hc f
    obtain ⟨l, -, hroom, hsame⟩ := halike hc
    rw [run_expression]
    exact hsame.run hroom f
  · intro c a c' hc h
    obtain ⟨l, hl, hroom, hsame⟩ := halike hc
    have hstop := hsame.stops hroom h
    exact ⟨Nat.lt_of_lt_of_le hstop.lt hl, excess?_mono hstop.fits hl⟩

theorem formulaOver_alike {limit d : Nat} {whole whole' : Matcher ExpressionTree}
    (hwhole : Alike limit d d whole whole') :
    Alike limit d d (formulaOver whole) (formulaOver whole') :=
  (alike_gap.bind fun _ => hwhole.bind fun e => alike_gap.bind fun _ =>
    alike_endOfInput.bind fun _ => .pure e).named _

end MetricFormula.Grammar
