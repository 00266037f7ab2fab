/-
  Proofs/Grammar/Frontier: the furthest failure is the first token that cannot follow.

  Where a matcher fails, its frontier is stuck.  `Tracks inner n` says this of a matcher for
  expressions, and that a place is settled where it succeeds, as far as fewer than `n`
  parentheses open.  A level keeps it if the level below does (`expressionOver_tracks`), so the
  frontier of a text without a parse tree is stuck (`stuck_of_tree`).
-/
import MetricFormula.Proofs.Grammar.Stuck

set_option autoImplicit false

namespace MetricFormula.Grammar

open Matcher

variable {c c' d : Cursor} {f f' : Frontier} {opened : List Opening}

/-! ## One level of nesting -/

/-- What a matcher for expressions has to leave, at places from which fewer than `n`
parentheses open. -/
def Tracks (inner : Matcher ExpressionTree) (n : Nat) : Prop :=
  ∀ {opened : List Opening} {c : Cursor} {f : Frontier}, c.openings < n → c.AtToken →
    f.Behind c.offset →
    Leaves inner c f (Settles operators operatorRules opened c) fun f' =>
      Stuck (.operand opened) c f' ∧ (f'.offset = c.offset → f'.expected.length = 1)

/-- Where no name starts, a rule that starts with one fails at once. -/
theorem identifier_leaves_none {Q : Cursor → Frontier → Prop} {E : Frontier → Prop}
    (h : Scan.identifier c.rest = none)
    (hE : E (f.record .identifier c.offset (f.count c.offset))) : Leaves identifier c f Q E := by
  refine Leaves.named (leaves_lexeme ?_ fun _ => hE)
  intro read rest hsome
  rw [h] at hsome
  simp at hsome

theorem identifier_leaves_some {read rest : List Char} {Q : Cursor → Frontier → Prop}
    {E : Frontier → Prop} (h : Scan.identifier c.rest = some (read, rest))
    (hQ : Q (c.past read rest) f) : Leaves identifier c f Q E := by
  refine Leaves.named (leaves_lexeme ?_ ?_)
  · intro read' rest' hsome
    rw [h] at hsome
    obtain ⟨rfl, rfl⟩ := Prod.mk.inj (Option.some.inj hsome)
    exact hQ
  · intro hnone
    rw [h] at hnone
    simp at hnone

section Level

variable {inner : Matcher ExpressionTree} {n : Nat}

/-- A parenthesis closes what was opened at `d`, or the frontier is stuck. -/
theorem closing_leaves {symbols : List Char} {o : Opening}
    (hoperators : ∀ e ∈ operators, e ∈ symbols) (hclose : ')' ∉ symbols)
    (hcomma : o = .call → ',' ∈ symbols)
    (h : Settles symbols operatorRules (o :: opened) d c f) :
    Leaves (char ')') c.afterGap f
      (fun c' f' => Passage (.operand (o :: opened)) d (.complete false opened) c' ∧
        f'.offset < c'.offset)
      (Stuck (.operand (o :: opened)) d) := by
  obtain ⟨hread, ⟨hnext, rfl⟩ | ⟨⟨e, he, hnext⟩, _, hstuck⟩⟩ := h
  · refine leaves_char ?_ ?_
    · intro rest hrest
      obtain ⟨b, hpassage, _⟩ := hread
      have hadvance : Advances (.complete b (o :: opened)) (.symbol ')') (.complete false opened) :=
        .close
      have hclosing := Passage.of_symbol hrest (by decide) hadvance
      exact ⟨(hpassage.trans (.afterGap _ _)).trans hclosing, offset_lt_past ')' rest⟩
    · intro hne
      obtain ⟨b, hpassage, hblocked⟩ := hread.blocked (fun e he => hnext e (hoperators e he))
        (fun _ => hne) fun hhead => hnext ',' (hcomma (by simpa using hhead))
      exact ⟨_, _, hpassage, hblocked, rfl, rfl⟩
  · refine leaves_char ?_ fun _ => hstuck
    intro rest hrest
    have hhead : c.next = some ')' := by rw [Cursor.next, hrest, List.head?_cons]
    rw [hhead] at hnext
    obtain rfl := Option.some.inj hnext
    exact absurd he hclose

/-- An argument after a comma keeps the place settled. -/
theorem argumentOver_leaves (hinner : Tracks inner n) (hn : d.openings < n)
    (h : Settles operators operatorRules (.call :: opened) d c f) :
    Leaves (argumentOver inner) c.afterGap f
      (fun c' f' => Settles operators operatorRules (.call :: opened) d c' f' ∧
        c'.rest.length < c.rest.length)
      (Settles (',' :: operators) operatorRules (.call :: opened) d c) := by
  have hread := h.1
  obtain ⟨⟨b, hpassage, _⟩, hcases⟩ := h
  have hcomma : Advances (.complete b (.call :: opened)) (.symbol ',')
    (.operand (.call :: opened)) := .comma
  refine symbol_leaves (by decide) hcomma ?_ ?_
  · intro c₁ h₁
    have hhead : c.next = some ',' := h₁.head
    have hto := (hpassage.trans (.afterGap _ _)).trans h₁.passage
    have hle := hto.openings_le
    have hlen := (Passage.afterGap (.operand opened) c).length_le
    have hlt := h₁.length
    have hf : f.offset = c.afterGap.offset := by
      rcases hcases with ⟨_, rfl⟩ | ⟨⟨e, he, hnext⟩, _⟩
      · rfl
      · rw [hhead] at hnext
        rw [← Option.some.inj hnext] at he
        exact absurd he (by decide)
    have hoffset := h₁.offset
    have harg := @hinner (.call :: opened) c₁ f (by omega) h₁.atToken
      (Frontier.behind_of_lt (by omega))
    refine harg.mono (fun c' f' h => ⟨h.of_passage hto, ?_⟩) fun f' h => ⟨hread, Or.inr ?_⟩
    · have := h.1.length_le
      omega
    · have := h.1.offset_le
      exact ⟨⟨',', List.mem_cons_self, hhead⟩, by omega, h.1.of_passage hto⟩
  · intro hne
    refine ⟨hread, ?_⟩
    rcases hcases with ⟨hnext, rfl⟩ | ⟨⟨e, he, hnext⟩, hlt, hstuck⟩
    · exact Or.inl ⟨List.forall_mem_cons.mpr ⟨hne, hnext⟩, rfl⟩
    · exact Or.inr ⟨⟨e, List.mem_cons_of_mem _ he, hnext⟩, hlt, hstuck⟩

/-- A group, or nothing where no parenthesis opens. -/
theorem groupedOver_leaves (hinner : Tracks inner n) (hn : c.openings ≤ n)
    (hf : f.offset ≤ c.offset) {E : Frontier → Prop}
    (hnot : c.rest.head? ≠ some '(' → E f) (hstuck : ∀ f', Stuck (.operand opened) c f' → E f') :
    Leaves (groupedOver inner) c f
      (fun c' f' => HasRead opened c c' ∧ f'.offset < c'.offset) E := by
  have hgroup : Advances (.operand opened) (.symbol '(') (.operand (.group :: opened)) := .group
  refine symbol_leaves (by decide) hgroup ?_ hnot
  intro c₁ h₁
  have hopenings := h₁.openings rfl
  have hoffset := h₁.offset
  have hin := @hinner (.group :: opened) c₁ f (by omega) h₁.atToken
    (Frontier.behind_of_lt (by omega))
  refine hin.andThen (fun f' h => hstuck f' (h.1.of_passage h₁.passage)) ?_
  intro e c₂ f₂ hsettles
  refine leaves_gap_bind ?_
  have hclosing := closing_leaves (fun _ he => he) (by decide) (by simp) hsettles
  refine hclosing.andThen (fun f' h => hstuck f' (h.of_passage h₁.passage)) ?_
  rintro _ c₃ f₃ ⟨hpassage, hlt⟩
  exact leaves_pure ⟨⟨false, h₁.passage.trans hpassage, by simp⟩, hlt⟩

/-- What stands between the parentheses of a call. -/
theorem parenthesized_leaves (opened : List Opening) (hinner : Tracks inner n)
    (hn : c.openings < n) (hc : c.AtToken) (hf : f.Behind c.offset) {β : Type}
    {k : ExpressionTree → List ExpressionTree → β} :
    Leaves (do
        let first ← inner
        let others ← repeated (argumentOver inner)
        gap
        char ')'
        pure (k first others)) c f
      (fun c' f' => Passage (.operand (.call :: opened)) c (.complete false opened) c' ∧
        f'.offset < c'.offset)
      (Stuck (.operand (.call :: opened)) c) := by
  refine (@hinner (.call :: opened) c f hn hc hf).andThen (fun _ h => h.1) ?_
  intro e c₁ f₁ hsettles
  have hothers := leaves_repeated (p := argumentOver inner)
    (fun _ _ h => argumentOver_leaves hinner hn h) (fun _ _ h => h.afterGap) hsettles
  refine hothers.andThen (fun _ h => h.elim) ?_
  intro es c₂ f₂ hsettles'
  refine leaves_gap_bind ?_
  exact (closing_leaves (fun _ he => List.mem_cons_of_mem _ he) (by decide) (by simp)
    hsettles').finish fun _ => ⟨_, rfl⟩

/-- A name that a parenthesis follows starts a call or nothing. -/
theorem callOver_leaves {x rest : List Char} (hinner : Tracks inner n) (hn : c.openings ≤ n)
    (hf : f.offset ≤ c.offset) (hx : Scan.identifier c.rest = some (x, rest))
    (hopen : (c.past x rest).next = some '(') :
    Leaves (callOver inner) c f
      (fun c' f' => HasRead opened c c' ∧ f'.offset < c'.offset)
      (fun f' => Stuck (.operand opened) c f' ∧ c.offset < f'.offset) := by
  have hm := identifier_iff_munches.mp hx
  have hname : Passage (.operand opened) c (.complete true opened) (c.past x rest).afterGap :=
    (Passage.of_munches hm .name).trans (.afterGap _ _)
  have hcall : Advances (.complete true opened) (.symbol '(') (.operand (.call :: opened)) := .call
  have hle := hname.openings_le
  have hoffset := hname.offset_le
  refine Leaves.node ?_ fun _ => ⟨_, rfl⟩
  refine (identifier_leaves_some (Q := fun c' f' => c' = c.past x rest ∧ f' = f) hx
    ⟨rfl, rfl⟩).bind ?_
  rintro name _ f₁ ⟨rfl, rfl⟩
  refine leaves_gap_bind (symbol_leaves (by decide) hcall ?_ fun hne => absurd hopen hne)
  intro c₁ h₁
  have hopenings := h₁.openings rfl
  have hlt := h₁.offset
  have hto := hname.trans h₁.passage
  have hinside := parenthesized_leaves (k := fun e es => (name, e, es)) opened hinner
    (Nat.lt_of_lt_of_le hopenings (Nat.le_trans hle hn)) h₁.atToken
    (Frontier.behind_of_lt (by omega : f₁.offset < c₁.offset))
  refine hinside.mono (fun _ _ h => ⟨⟨false, hto.trans h.1, by simp⟩, h.2⟩) fun f' h => ?_
  have hbeyond : c.offset < f'.offset := by
    have := h.offset_le
    omega
  rw [Frontier.record_of_lt hbeyond]
  exact ⟨h.of_passage hto, hbeyond⟩

/-- A name that no parenthesis follows is no call. -/
theorem callOver_refused {x rest : List Char} {Q : Cursor → Frontier → Prop}
    {E : Frontier → Prop} (hf : f.Behind c.offset) (hx : Scan.identifier c.rest = some (x, rest))
    (hopen : (c.past x rest).next ≠ some '(') (hE : E ⟨c.offset, [.call]⟩) :
    Leaves (callOver inner) c f Q E := by
  refine Leaves.node ?_ fun _ => ⟨_, rfl⟩
  refine (identifier_leaves_some (Q := fun c' f' => c' = c.past x rest ∧ f' = f) hx
    ⟨rfl, rfl⟩).bind ?_
  rintro name _ f₁ ⟨rfl, rfl⟩
  refine leaves_gap_bind (Leaves.refused (leaves_char ?_ fun _ => ?_))
  · intro rest' hrest
    exact hopen (by rw [Cursor.next, hrest, List.head?_cons])
  · rw [hf.count_eq, hf.record_eq]
    exact hE

/-- A name that no parenthesis follows is a reference, and one that a parenthesis follows is
none. -/
theorem reference_leaves {x rest : List Char} {Q : Cursor → Frontier → Prop}
    {E : Frontier → Prop} (hx : Scan.identifier c.rest = some (x, rest))
    (hQ : (c.past x rest).next ≠ some '(' → Q (c.past x rest).afterGap f)
    (hE : (c.past x rest).next = some '(' →
      E (f.record .reference c.offset (f.count c.offset))) : Leaves reference c f Q E := by
  refine Leaves.node ?_ fun _ => ⟨_, rfl⟩
  refine (identifier_leaves_some (Q := fun c' f' => c' = c.past x rest ∧ f' = f) hx
    ⟨rfl, rfl⟩).bind ?_
  rintro name _ f₁ ⟨rfl, rfl⟩
  refine leaves_gap_bind ((leaves_notAhead hQ ?_).finish fun _ => ⟨_, rfl⟩)
  exact hE

/-- Where a name starts, no literal and no group does. -/
theorem constant_or_grouped_leaves {x rest : List Char} {Q : Cursor → Frontier → Prop}
    {E : Frontier → Prop} (hx : Scan.identifier c.rest = some (x, rest))
    (hlt : c.offset < f.offset) (hE : E f) :
    Leaves ((do
      let literal ← constant
      pure (FactorTree.constant literal)) <|> groupedOver inner) c f Q E := by
  have hm := identifier_iff_munches.mp hx
  refine Leaves.orElse (E := fun g => g = f) (Leaves.refused (Leaves.named
    (leaves_lexeme ?_ fun _ => Frontier.record_of_lt hlt))) ?_
  · intro read rest' hread
    have hmunches := hm.unique (constant_iff_munches.mp hread)
    simp at hmunches
  · rintro g rfl
    refine Leaves.refused (leaves_char ?_ fun _ => hE)
    intro rest' hrest
    rw [hrest] at hm
    have hmunches := hm.unique (munches_symbol (by decide) rest')
    simp at hmunches

/-- Where a name starts, a factor is a call or a reference. -/
theorem factorOver_leaves_name {x rest : List Char} (hinner : Tracks inner n)
    (hn : c.openings ≤ n) (hf : f.Behind c.offset)
    (hx : Scan.identifier c.rest = some (x, rest)) :
    Leaves (factorOver inner) c f (fun c' f' => HasRead opened c c' ∧ f'.offset < c'.offset)
      (Stuck (.operand opened) c) := by
  have hm := identifier_iff_munches.mp hx
  by_cases hopen : (c.past x rest).next = some '('
  · refine (callOver_leaves hinner hn hf.1 hx hopen).orElse ?_
    rintro f₁ ⟨hstuck, hlt⟩
    refine Leaves.orElse (E := fun g => g = f₁) (reference_leaves hx (absurd hopen) fun _ =>
      Frontier.record_of_lt hlt) ?_
    rintro g rfl
    exact constant_or_grouped_leaves hx hlt hstuck
  · refine Leaves.orElse (E := fun g => g = ⟨c.offset, [.call]⟩)
      (callOver_refused hf hx hopen rfl) ?_
    rintro g rfl
    have hpassage : Passage (.operand opened) c (.complete true opened)
        (c.past x rest).afterGap := (Passage.of_munches hm .name).trans (.afterGap _ _)
    have hpos := hm.byteLength_pos
    have hle := (c.past x rest).offset_le_afterGap
    have hlt : c.offset < (c.past x rest).afterGap.offset :=
      Nat.lt_of_lt_of_le (Nat.lt_add_of_pos_right hpos) hle
    refine (reference_leaves (E := fun _ => False) hx (fun _ => ?_) fun h => hopen h).orElse
      fun _ h => h.elim
    exact ⟨⟨true, hpassage, fun _ => by rwa [Cursor.next_afterGap]⟩, hlt⟩

/-- Where no name starts, the rules that start with one fail, each leaving one failure. -/
theorem refused_leaves {Q : Cursor → Frontier → Prop} {q : Matcher FactorTree}
    {E : Frontier → Prop} (hf : f.Behind c.offset) (hx : Scan.identifier c.rest = none)
    (hq : Leaves q c ⟨c.offset, [.identifier, .identifier]⟩ Q E) :
    Leaves (callOver inner <|> reference <|> q) c f Q E := by
  refine Leaves.orElse (E := fun g => g = ⟨c.offset, [.identifier]⟩) ?_ ?_
  · refine Leaves.node (Leaves.refused (identifier_leaves_none hx ?_)) fun _ => ⟨_, rfl⟩
    rw [hf.count_eq, hf.record_eq, Frontier.record_self]
    rfl
  · rintro g rfl
    refine Leaves.orElse (E := fun g => g = ⟨c.offset, [.identifier, .identifier]⟩) ?_ ?_
    · refine Leaves.node (Leaves.refused (identifier_leaves_none hx ?_)) fun _ => ⟨_, rfl⟩
      rw [Frontier.count_self, Frontier.record_self, if_neg (by decide), Frontier.record_self]
      rfl
    · rintro g rfl
      exact hq

/-- A digit starts a literal. -/
theorem constant_ne_none {e : Char} (he : e.isDigit = true) (rest : List Char) :
    Scan.constant (e :: rest) ≠ none := by
  obtain ⟨m, tail, hscan, _⟩ := Decimal.Numeral.exists_scan? (digit_wellFormed he) rest
  have hscan' : Decimal.Numeral.scan? (e :: rest) = some (m, tail) := hscan
  simp [Scan.constant, hscan']

/-- Where no name starts, a factor is a literal or a group. -/
theorem factorOver_leaves_other (hinner : Tracks inner n) (hn : c.openings ≤ n)
    (hc : c.AtToken) (hf : f.Behind c.offset) (hx : Scan.identifier c.rest = none) :
    Leaves (factorOver inner) c f (fun c' f' => HasRead opened c c' ∧ f'.offset < c'.offset)
      (Stuck (.operand opened) c) := by
  refine refused_leaves hf hx ?_
  cases hl : Scan.constant c.rest with
  | some r =>
      obtain ⟨l, rest⟩ := r
      have hm := constant_iff_munches.mp hl
      have hpassage : Passage (.operand opened) c (.complete false opened) (c.past l rest) :=
        .of_munches hm .literal
      refine Leaves.orElse (E := fun _ => False) (Leaves.finish (Leaves.named
        (leaves_lexeme ?_ ?_)) fun _ => ⟨_, rfl⟩) fun _ h => h.elim
      · intro read rest' hread
        rw [hl] at hread
        obtain ⟨rfl, rfl⟩ := Prod.mk.inj (Option.some.inj hread)
        exact ⟨⟨false, hpassage, by simp⟩, Nat.lt_add_of_pos_right hm.byteLength_pos⟩
      · intro hnone
        rw [hl] at hnone
        simp at hnone
  | none =>
      refine Leaves.orElse
        (E := fun g => g = ⟨c.offset, [.identifier, .identifier, .constant]⟩)
        (Leaves.refused (Leaves.named (leaves_lexeme ?_ ?_))) ?_
      · intro read rest hread
        rw [hl] at hread
        simp at hread
      · intro _
        rw [Frontier.count_self, Frontier.record_self]
        rfl
      · rintro g rfl
        refine groupedOver_leaves hinner hn (Nat.le_refl _) (fun hne => ?_) fun _ h => h
        refine ⟨_, c, .refl, ?_, rfl, rfl⟩
        intro e he
        refine ⟨hc e he, fun hpoint t s' hstart hadvance => ?_⟩
        obtain ⟨tail, hrest⟩ := List.head?_eq_some_iff.mp he
        cases hadvance with
        | name =>
            rw [hrest] at hx
            simp only [Token.Starts] at hstart
            simp [Scan.identifier, hstart] at hx
        | literal =>
            rcases hstart with hdigit | hdot
            · rw [hrest] at hl
              exact constant_ne_none hdigit tail hl
            · exact hpoint hdot
        | group => exact hne (hstart.1 ▸ he)

/-- A factor is read, or the frontier is stuck. -/
theorem factorOver_leaves (opened : List Opening) (hinner : Tracks inner n)
    (hn : c.openings ≤ n) (hc : c.AtToken) (hf : f.Behind c.offset) :
    Leaves (factorOver inner) c f (fun c' f' => HasRead opened c c' ∧ f'.offset < c'.offset)
      (Stuck (.operand opened) c) := by
  cases hx : Scan.identifier c.rest with
  | none => exact factorOver_leaves_other hinner hn hc hf hx
  | some r => exact factorOver_leaves_name hinner hn hf hx

/-- The next operand after an operator and blanks is due at a place further on. -/
theorem HasRead.onward {e : Char} {rest : List Char} (h : HasRead opened d c)
    (hrest : c.afterGap.rest = e :: rest) (he : e ∈ operators) :
    ∃ c', (c.afterGap.past [e] rest).afterGap = c' ∧
      Passage (.operand opened) d (.operand opened) c' ∧ c'.AtToken ∧
      c.afterGap.offset < c'.offset ∧ c'.rest.length < c.rest.length ∧ c.next = some e := by
  obtain ⟨b, hpassage, _⟩ := h
  have hadvance : Advances (.complete b opened) (.symbol e) (.operand opened) := .operator he
  have h₁ := Grammar.onward hrest (operators_subset_symbols e he) hadvance
  have hlen := (Passage.afterGap (.operand opened) c).length_le
  exact ⟨_, rfl, (hpassage.trans (.afterGap _ _)).trans h₁.passage, h₁.atToken, h₁.offset,
    Nat.lt_of_lt_of_le h₁.length hlen, h₁.head⟩

/-- A step of a term keeps an operand read, or leaves the place settled. -/
theorem termStepOver_leaves (hinner : Tracks inner n) (hn : d.openings ≤ n)
    (h : HasRead opened d c ∧ f.offset < c.offset) :
    Leaves (termStepOver inner) c.afterGap f
      (fun c' f' => (HasRead opened d c' ∧ f'.offset < c'.offset) ∧
        c'.rest.length < c.rest.length)
      (Settles multiplicativeSymbols [.mul, .div] opened d c) := by
  obtain ⟨hread, hf⟩ := h
  have hlt : f.offset < c.afterGap.offset := Nat.lt_of_lt_of_le hf c.offset_le_afterGap
  refine (placed_leaves (Q := fun c₁ f₁ => ∃ e ∈ multiplicativeSymbols, ∃ rest,
    c.afterGap.rest = e :: rest ∧ c₁ = c.afterGap.past [e] rest ∧ f₁.offset ≤ c.afterGap.offset)
    (Nat.le_of_lt hlt) (fun e he rest g hrest hg => ⟨e, he, rest, hrest, rfl, hg⟩) ?_).bind ?_
  · intro hne
    rw [(Frontier.behind_of_lt hlt).2]
    exact ⟨hread, Or.inl ⟨hne, rfl⟩⟩
  · rintro ⟨operator, place⟩ _ f₁ ⟨e, he, rest, hrest, rfl, hf₁⟩
    refine leaves_gap_bind ?_
    have hoperator : e ∈ operators := mem_operators_left he
    obtain ⟨c₁, hc₁, hto, htoken, hoffset, hlen, hnext⟩ := hread.onward hrest hoperator
    rw [hc₁]
    have hle := hto.openings_le
    have hfactor := factorOver_leaves opened hinner (by omega : c₁.openings ≤ n) htoken
      (Frontier.behind_of_lt (by omega : f₁.offset < c₁.offset))
    refine (hfactor.mono (fun c' f' h => ⟨⟨h.1.of_passage hto, h.2⟩, ?_⟩)
      fun f' h => ⟨hread, Or.inr ⟨⟨e, he, hnext⟩, ?_, h.of_passage hto⟩⟩).finish
      fun _ => ⟨_, rfl⟩
    · have := h.1.length_le
      omega
    · have := h.offset_le
      omega

/-- A term is read and its place settled, or the frontier is stuck. -/
theorem termOver_leaves (opened : List Opening) (hinner : Tracks inner n)
    (hn : c.openings ≤ n) (hc : c.AtToken) (hf : f.Behind c.offset) :
    Leaves (termOver inner) c f (Settles multiplicativeSymbols [.mul, .div] opened c)
      (fun f' => Stuck (.operand opened) c f' ∧
        (f'.offset = c.offset → f'.expected.length = 1)) := by
  refine Leaves.node ?_ fun _ => ⟨_, rfl⟩
  refine (factorOver_leaves opened hinner hn hc hf).andThen (fun f' h => ?_) ?_
  · refine ⟨h.record hf rfl, fun hoffset => ?_⟩
    rw [hf.count_eq] at hoffset ⊢
    exact Frontier.length_expected_record hoffset
  · intro x c₁ f₁ hmid
    have hsteps := leaves_repeated (p := termStepOver inner)
      (fun _ _ h => termStepOver_leaves hinner hn h) (fun _ _ h => h.afterGap) hmid
    exact hsteps.andThen (fun _ h => h.elim) fun _ _ _ h => leaves_pure h

/-- A step of an expression keeps the place settled. -/
theorem expressionStepOver_leaves (hinner : Tracks inner n) (hn : d.openings ≤ n)
    (h : Settles multiplicativeSymbols [.mul, .div] opened d c f) :
    Leaves (expressionStepOver inner) c.afterGap f
      (fun c' f' => Settles multiplicativeSymbols [.mul, .div] opened d c' f' ∧
        c'.rest.length < c.rest.length)
      (Settles operators operatorRules opened d c) := by
  obtain ⟨hread, ⟨hne, rfl⟩ | ⟨⟨e, he, hnext⟩, hlt, hstuck⟩⟩ := h
  · refine (placed_leaves (Q := fun c₁ f₁ => ∃ e ∈ additiveSymbols, ∃ rest,
      c.afterGap.rest = e :: rest ∧ c₁ = c.afterGap.past [e] rest ∧
      f₁.offset ≤ c.afterGap.offset)
      (Nat.le_refl _) (fun e he rest g hrest hg => ⟨e, he, rest, hrest, rfl, hg⟩) ?_).bind ?_
    · intro hne'
      rw [Frontier.kept_self]
      exact ⟨hread, Or.inl ⟨forall_operators hne hne', rfl⟩⟩
    · rintro ⟨operator, place⟩ _ f₁ ⟨e, he, rest, hrest, rfl, hf₁⟩
      refine leaves_gap_bind ?_
      have hoperator : e ∈ operators := mem_operators_right he
      obtain ⟨c₁, hc₁, hto, htoken, hoffset, hlen, hnext⟩ := hread.onward hrest hoperator
      rw [hc₁]
      have hle := hto.openings_le
      have hterm := termOver_leaves opened hinner (by omega : c₁.openings ≤ n) htoken
        (Frontier.behind_of_lt (by omega : f₁.offset < c₁.offset))
      refine (hterm.mono (fun c' f' h => ⟨h.of_passage hto, ?_⟩)
        fun f' h => ⟨hread, Or.inr ⟨⟨e, hoperator, hnext⟩, ?_, h.1.of_passage hto⟩⟩).finish
        fun _ => ⟨_, rfl⟩
      · have := h.1.length_le
        omega
      · have := h.1.offset_le
        omega
  · have hother : ∀ e' ∈ additiveSymbols, c.afterGap.rest.head? ≠ some e' := by
      intro e' he' hhead
      have heq : some e' = some e := hhead.symm.trans hnext
      obtain rfl := Option.some.inj heq
      exact not_mem_additiveSymbols _ he he'
    refine Leaves.refused (placed_leaves_of_lt hlt hother ?_)
    exact ⟨hread, Or.inr ⟨⟨e, mem_operators_left he, hnext⟩, hlt, hstuck⟩⟩

/-- If the level below keeps track of the frontier, so does this level. -/
theorem expressionOver_tracks (hinner : Tracks inner n) :
    Tracks (expressionOver inner) (n + 1) := by
  intro opened c f hn hc hf
  have hn := Nat.le_of_lt_succ hn
  refine Leaves.node ?_ fun _ => ⟨_, rfl⟩
  refine (termOver_leaves opened hinner hn hc hf).andThen (fun f' h => ?_) ?_
  · refine ⟨h.1.record hf rfl, fun hoffset => ?_⟩
    rw [hf.count_eq] at hoffset ⊢
    exact Frontier.length_expected_record hoffset
  · intro t c₁ f₁ hmid
    have hsteps := leaves_repeated (p := expressionStepOver inner)
      (fun _ _ h => expressionStepOver_leaves hinner hn h) (fun _ _ h => h.afterGap) hmid
    exact hsteps.andThen (fun _ h => h.elim) fun _ _ _ h => leaves_pure h

end Level

/-! ## All levels -/

theorem expressionWithin_tracks (n : Nat) : Tracks (expressionWithin fail n) n := by
  induction n with
  | zero =>
      intro opened c f hn
      exact absurd hn (Nat.not_lt_zero _)
  | succ n ih => exact expressionOver_tracks ih

/-- An expression is read and its place settled, or the frontier is stuck. -/
theorem expression_leaves (opened : List Opening) (hc : c.AtToken) (hf : f.Behind c.offset) :
    Leaves expression c f (Settles operators operatorRules opened c) fun f' =>
      Stuck (.operand opened) c f' ∧ (f'.offset = c.offset → f'.expected.length = 1) := by
  have hlevels := @expressionOver_tracks _ _ (expressionWithin_tracks c.openings) opened c f
    (Nat.lt_succ_self _) hc hf
  exact hlevels.of_run_eq (run_nested expressionOver c f)

/-- After a formula the text ends, or the frontier is stuck. -/
theorem endOfInput_leaves (h : Settles operators operatorRules [] d c f) :
    Leaves endOfInput c.afterGap f (fun _ _ => True) fun f' =>
      Stuck (.operand []) d f' ∧ d.offset < f'.offset := by
  obtain ⟨hread, ⟨hne, rfl⟩ | ⟨⟨e, _, hnext⟩, hlt, hstuck⟩⟩ := h
  · refine Leaves.named (leaves_atEnd (fun _ => trivial) fun hrest => ?_)
    obtain ⟨b, hpassage, hblocked⟩ := hread.blocked hne (by simp) (by simp)
    have hrecord := Frontier.record_kept .endOfInput
      (Nat.le_refl (Frontier.mk c.afterGap.offset operatorRules).offset)
    rw [hrecord, Frontier.kept_self]
    refine ⟨⟨_, _, hpassage, hblocked, rfl, rfl⟩, ?_⟩
    refine Nat.lt_of_le_of_ne hpassage.offset_le fun heq => ?_
    have hstays := hpassage.eq_of_offset_eq heq.symm
    simp at hstays
  · refine Leaves.named (leaves_atEnd (fun _ => trivial) fun _ => ?_)
    rw [Frontier.record_of_lt hlt]
    have hle := hread.afterGap
    obtain ⟨b, hpassage, _⟩ := hle
    exact ⟨hstuck, Nat.lt_of_le_of_lt hpassage.offset_le hlt⟩

/-- A rule with a single failure at its start is not recorded. -/
theorem Frontier.record_of_single {rule : Rule} {n : Nat} (hle : n ≤ f.offset)
    (h : f.offset = n → f.expected.length = 1) : f.record rule n 0 = f := by
  rcases Nat.lt_or_eq_of_le hle with hlt | rfl
  · exact Frontier.record_of_lt hlt
  · rw [Frontier.record, Frontier.count, if_pos rfl, if_pos (h rfl)]

/-- Where a formula cannot be read, the frontier is stuck. -/
theorem formula_leaves (source : String) :
    Leaves formula (Cursor.ofString source) Frontier.initial (fun _ _ => True)
      (Stuck (.operand []) (Cursor.ofString source)) := by
  have hblanks := Passage.afterGap (.operand []) (Cursor.ofString source)
  have htoken := (Cursor.ofString source).atToken_afterGap
  unfold formula formulaOver
  refine Leaves.named (Leaves.mono (Q := fun _ _ => True) (E := fun f' =>
    Stuck (.operand []) (Cursor.ofString source) f' ∧ (f'.offset = 0 → f'.expected.length = 1))
    (leaves_gap_bind ?_) (fun _ _ h => h) fun f' h => ?_)
  · generalize (Cursor.ofString source).afterGap = c at hblanks htoken
    have hbehind : Frontier.initial.Behind c.offset := by
      refine ⟨Nat.zero_le _, ?_⟩
      unfold Frontier.kept
      split <;> rfl
    refine (expression_leaves [] htoken hbehind).andThen (fun f' h => ?_) ?_
    · have hle := h.1.offset_le
      exact ⟨h.1.of_passage hblanks, fun hzero => h.2 (by omega)⟩
    · intro e c₁ f₁ hsettles
      refine leaves_gap_bind ((endOfInput_leaves hsettles).andThen (fun f' h => ?_)
        fun _ _ _ _ => leaves_pure trivial)
      exact ⟨h.1.of_passage hblanks, fun hzero => absurd h.2 (by omega)⟩
  · -- The rule for the whole formula starts where nothing has failed yet.
    have hrecord : f'.record .main 0 0 = f' := Frontier.record_of_single (Nat.zero_le _) h.2
    change Stuck _ _ (f'.record .main 0 0)
    rw [hrecord]
    exact h.1

/-- The frontier of a text without a parse tree is stuck. -/
theorem stuck_of_tree {source : String} (h : tree source = .error f) :
    Stuck (.operand []) (Cursor.ofString source) f := by
  unfold tree matchFrom at h
  split at h
  · simp at h
  · rename_i g hrun
    obtain rfl := Except.error.inj h
    exact (formula_leaves source).of_run_none hrun

end MetricFormula.Grammar
