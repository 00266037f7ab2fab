/-
  Proofs/Grammar/Stuck: where a text stops being the beginning of a formula.

  `Stuck s c f` says that a passage from the progress `s` at the place `c` comes to a place at
  which no token can go on, that the furthest failure lies there, and that the rules that
  failed there are of the classes that could have come.

  Where a matcher has read an operand it may have stopped early: an operator comes next, and
  what follows the operator could not be read.  Then the frontier is stuck beyond the operator,
  and nothing that is tried before that place makes a difference (`Settles`).
-/
import MetricFormula.Proofs.Grammar.Passage
import MetricFormula.Proofs.Grammar.Leaves
import MetricFormula.Fault

set_option autoImplicit false

namespace MetricFormula.Grammar

open Matcher

variable {s s' : Progress} {c c' d : Cursor} {f f' : Frontier} {opened : List Opening}

/-! ## Stuck frontiers -/

/-- The classes of what may come next. -/
def Progress.expectation : Progress → Expectation
  | operand _ => ⟨true, false, false, false⟩
  | complete _ opened => ⟨false, true, true, opened.isEmpty⟩

/-- No token that can come next starts here, and no blank does.  A point may stand here that no
digit follows. -/
def Blocked (s : Progress) (c : Cursor) : Prop :=
  ∀ d, c.rest.head? = some d →
    Scan.isGap d = false ∧ (d ≠ '.' → ∀ t s', t.Starts d → ¬Advances s t s')

/-- The furthest failure lies where a passage ends that cannot go on, and what failed there is
what could have come. -/
def Stuck (s : Progress) (c : Cursor) (f : Frontier) : Prop :=
  ∃ s' c', Passage s c s' c' ∧ Blocked s' c' ∧ f.offset = c'.offset ∧
    Expectation.ofRules f.expected = s'.expectation

namespace Stuck

theorem of_passage (h : Passage s c s' c') (hstuck : Stuck s' c' f) : Stuck s c f := by
  obtain ⟨s₁, c₁, hpassage, hblocked, hoffset, hexpected⟩ := hstuck
  exact ⟨s₁, c₁, h.trans hpassage, hblocked, hoffset, hexpected⟩

theorem offset_le (h : Stuck s c f) : c.offset ≤ f.offset := by
  obtain ⟨s₁, c₁, hpassage, _, hoffset, _⟩ := h
  rw [hoffset]
  exact hpassage.offset_le

/-- A rule that starts with an operand may be recorded where one is due. -/
theorem record {g : Frontier} {rule : Rule} (h : Stuck (.operand opened) c f)
    (hg : g.Behind c.offset)
    (hrule : Expectation.ofRules [rule] = (Progress.operand opened).expectation) :
    Stuck (.operand opened) c (f.record rule c.offset (g.count c.offset)) := by
  obtain ⟨s₁, c₁, hpassage, hblocked, hoffset, hexpected⟩ := h
  by_cases hlt : c.offset < f.offset
  · rw [Frontier.record_of_lt hlt]
    exact ⟨s₁, c₁, hpassage, hblocked, hoffset, hexpected⟩
  · have hle := hpassage.offset_le
    have heq : f.offset = c.offset := by omega
    obtain ⟨rfl, rfl⟩ := hpassage.eq_of_offset_eq (by omega)
    obtain ⟨n, rules⟩ := f
    obtain rfl : n = c₁.offset := heq
    rw [hg.count_eq, Frontier.record_self]
    split
    · exact ⟨_, c₁, .refl, hblocked, rfl, hexpected⟩
    · exact ⟨_, c₁, .refl, hblocked, rfl, hrule⟩

end Stuck

/-! ## What has been read -/

/-- The character after the blanks. -/
def Cursor.next (c : Cursor) : Option Char := c.afterGap.rest.head?

@[simp] theorem Cursor.next_afterGap (c : Cursor) : c.afterGap.next = c.next := by
  rw [Cursor.next, Cursor.afterGap_afterGap, Cursor.next]

/-- An operand has been read, with whatever operators joined to it, and it is not the name of a
call. -/
def HasRead (opened : List Opening) (c c' : Cursor) : Prop :=
  ∃ b, Passage (.operand opened) c (.complete b opened) c' ∧ (b = true → c'.next ≠ some '(')

namespace HasRead

theorem of_passage (h : Passage (.operand opened) c (.operand opened) d)
    (hread : HasRead opened d c') : HasRead opened c c' := by
  obtain ⟨b, hpassage, hnext⟩ := hread
  exact ⟨b, h.trans hpassage, hnext⟩

theorem afterGap (h : HasRead opened c c') : HasRead opened c c'.afterGap := by
  obtain ⟨b, hpassage, hnext⟩ := h
  exact ⟨b, hpassage.trans (.afterGap _ _), by rwa [Cursor.next_afterGap]⟩

theorem length_le (h : HasRead opened c c') : c'.rest.length ≤ c.rest.length := by
  obtain ⟨b, hpassage, _⟩ := h
  exact hpassage.length_le

/-- After an operand, a character that is neither an operator nor a parenthesis nor a comma
that has a place there cannot go on. -/
theorem blocked (h : HasRead opened c c') (hoperator : ∀ e ∈ operators, c'.next ≠ some e)
    (hclose : opened ≠ [] → c'.next ≠ some ')')
    (hcomma : opened.head? = some .call → c'.next ≠ some ',') :
    ∃ b, Passage (.operand opened) c (.complete b opened) c'.afterGap ∧
      Blocked (.complete b opened) c'.afterGap := by
  obtain ⟨b, hpassage, hnext⟩ := h
  refine ⟨b, hpassage.trans (.afterGap _ _), ?_⟩
  intro e he
  refine ⟨c'.atToken_afterGap e he, fun _ t s' hstart hadvance => ?_⟩
  cases hadvance with
  | call => exact hnext rfl (hstart.1 ▸ he)
  | comma => exact hcomma rfl (hstart.1 ▸ he)
  | close => exact hclose (by simp) (hstart.1 ▸ he)
  | operator hd => exact hoperator _ hd (hstart.1 ▸ he)

end HasRead

/-- A place after an operand at which none of some symbols can be read on from: none of them
comes next, and some rules have failed there; or one comes next, but what follows it could not
be read, and the frontier is stuck further on. -/
def Settles (symbols : List Char) (rules : List Rule) (opened : List Opening) (c c' : Cursor)
    (f : Frontier) : Prop :=
  HasRead opened c c' ∧
    (((∀ e ∈ symbols, c'.next ≠ some e) ∧ f = ⟨c'.afterGap.offset, rules⟩) ∨
      (∃ e ∈ symbols, c'.next = some e) ∧ c'.afterGap.offset < f.offset ∧
        Stuck (.operand opened) c f)

namespace Settles

variable {symbols : List Char} {rules : List Rule}

theorem of_passage (h : Passage (.operand opened) c (.operand opened) d)
    (hsettles : Settles symbols rules opened d c' f) : Settles symbols rules opened c c' f := by
  obtain ⟨hread, hnext | ⟨hsome, hlt, hstuck⟩⟩ := hsettles
  · exact ⟨hread.of_passage h, Or.inl hnext⟩
  · exact ⟨hread.of_passage h, Or.inr ⟨hsome, hlt, hstuck.of_passage h⟩⟩

theorem afterGap (h : Settles symbols rules opened c c' f) :
    Settles symbols rules opened c c'.afterGap f := by
  obtain ⟨hread, hcases⟩ := h
  refine ⟨hread.afterGap, ?_⟩
  rw [Cursor.next_afterGap, Cursor.afterGap_afterGap]
  exact hcases

end Settles

/-- The operators between factors. -/
def multiplicativeSymbols : List Char := ['*', '/']

/-- The operators between terms. -/
def additiveSymbols : List Char := ['+', '-']

theorem mem_operators_left {e : Char} (h : e ∈ multiplicativeSymbols) : e ∈ operators :=
  List.mem_append_left additiveSymbols h

theorem mem_operators_right {e : Char} (h : e ∈ additiveSymbols) : e ∈ operators :=
  List.mem_append_right multiplicativeSymbols h

theorem forall_operators {P : Char → Prop} (h : ∀ e ∈ multiplicativeSymbols, P e)
    (h' : ∀ e ∈ additiveSymbols, P e) : ∀ e ∈ operators, P e :=
  List.forall_mem_append.mpr ⟨h, h'⟩

/-- An operator is of one kind only. -/
theorem not_mem_additiveSymbols : ∀ e ∈ multiplicativeSymbols, e ∉ additiveSymbols := by
  simp [multiplicativeSymbols, additiveSymbols]

/-- The rules that have failed where no operator comes between terms or factors. -/
def operatorRules : List Rule := [.mul, .div, .add, .sub]

/-! ## Symbols -/

theorem offset_lt_past (e : Char) (rest : List Char) : c.offset < (c.past [e] rest).offset :=
  Nat.lt_add_of_pos_right (Nat.lt_of_lt_of_le e.utf8Size_pos (Nat.le_add_right _ _))

/-- One symbol and the blanks after it have been read. -/
structure Onward (s : Progress) (c : Cursor) (e : Char) (s' : Progress) (c' : Cursor) : Prop where
  head : c.rest.head? = some e
  passage : Passage s c s' c'
  atToken : c'.AtToken
  offset : c.offset < c'.offset
  length : c'.rest.length < c.rest.length
  openings : e = '(' → c'.openings < c.openings

theorem onward {e : Char} {rest : List Char} (hrest : c.rest = e :: rest) (he : e ∈ symbols)
    (h : Advances s (.symbol e) s') : Onward s c e s' (c.past [e] rest).afterGap := by
  have hblanks := Passage.afterGap s' (c.past [e] rest)
  refine ⟨by rw [hrest, List.head?_cons], (Passage.of_symbol hrest he h).trans hblanks,
    Cursor.atToken_afterGap _, Nat.lt_of_lt_of_le (offset_lt_past e rest) hblanks.offset_le, ?_, ?_⟩
  · have hle := hblanks.length_le
    rw [hrest, List.length_cons]
    exact Nat.lt_succ_of_le hle
  · rintro rfl
    have hle := hblanks.openings_le
    rw [Cursor.openings, Cursor.openings, hrest, List.count_cons_self]
    exact Nat.lt_succ_of_le hle

/-- A symbol, blanks, and then a matcher. -/
theorem symbol_leaves {α : Type} {k : Matcher α} {e : Char} {Q : Cursor → Frontier → Prop}
    {E : Frontier → Prop} (he : e ∈ symbols) (h : Advances s (.symbol e) s')
    (hk : ∀ c', Onward s c e s' c' → Leaves k c' f Q E) (hnot : c.rest.head? ≠ some e → E f) :
    Leaves (do char e; gap; k) c f Q E := by
  refine (leaves_char (Q := fun c₁ f₁ => f₁ = f ∧ ∃ rest, c.rest = e :: rest ∧
    c₁ = c.past [e] rest) (fun rest hrest => ⟨rfl, rest, hrest, rfl⟩) hnot).bind ?_
  rintro _ _ _ ⟨rfl, rest, hrest, rfl⟩
  exact leaves_gap_bind (hk _ (onward hrest he h))

/-- One of two symbols is read, or both of their rules are recorded. -/
theorem placed_leaves {α : Type} {rule₁ rule₂ : Rule} {x₁ x₂ : α} {e₁ e₂ : Char}
    {Q : Cursor → Frontier → Prop} {E : Frontier → Prop} (hf : f.offset ≤ c.offset)
    (hQ : ∀ e ∈ [e₁, e₂], ∀ rest g, c.rest = e :: rest → g.offset ≤ c.offset →
      Q (c.past [e] rest) g)
    (hE : (∀ e ∈ [e₁, e₂], c.rest.head? ≠ some e) →
      E ⟨c.offset, f.kept c.offset ++ [rule₁, rule₂]⟩) :
    Leaves ((named rule₁ do
      let place ← offset
      char e₁
      pure (x₁, place)) <|> named rule₂ do
      let place ← offset
      char e₂
      pure (x₂, place)) c f Q E := by
  refine Leaves.orElse (E := fun g => c.rest.head? ≠ some e₁ ∧
    g = ⟨c.offset, f.kept c.offset ++ [rule₁]⟩) ?_ ?_
  · refine leaves_placed (fun rest hrest => ?_) fun hne => ⟨hne, Frontier.record_kept _ hf⟩
    exact hQ e₁ (by simp) rest f hrest hf
  · rintro g ⟨hne, rfl⟩
    refine leaves_placed (fun rest hrest => ?_) fun hne' => ?_
    · exact hQ e₂ (by simp) rest _ hrest (Nat.le_refl _)
    · have hboth := Frontier.record_kept rule₂
        (Nat.le_refl (Frontier.mk c.offset (f.kept c.offset ++ [rule₁])).offset)
      rw [hboth, Frontier.kept_self, List.append_assoc]
      exact hE (by simp [hne, hne'])

/-- Neither of two symbols is read before the furthest failure, which stays. -/
theorem placed_leaves_of_lt {α : Type} {rule₁ rule₂ : Rule} {x₁ x₂ : α} {e₁ e₂ : Char}
    {Q : Cursor → Frontier → Prop} {E : Frontier → Prop} (hf : c.offset < f.offset)
    (hne : ∀ e ∈ [e₁, e₂], c.rest.head? ≠ some e) (hE : E f) :
    Leaves ((named rule₁ do
      let place ← offset
      char e₁
      pure (x₁, place)) <|> named rule₂ do
      let place ← offset
      char e₂
      pure (x₂, place)) c f Q E := by
  refine Leaves.orElse (E := fun g => g = f) ?_ ?_
  · refine leaves_placed (fun rest hrest => ?_) fun _ => Frontier.record_of_lt hf
    exact absurd (by rw [hrest]; rfl) (hne e₁ (by simp))
  · rintro g rfl
    refine leaves_placed (fun rest hrest => ?_) fun _ => ?_
    · exact absurd (by rw [hrest]; rfl) (hne e₂ (by simp))
    · rwa [Frontier.record_of_lt hf]

end MetricFormula.Grammar
