/-
  Proofs/Grammar/Matcher: what a matcher reads, apart from the frontier.

  Whether a matcher succeeds, and what it reads, does not depend on the frontier it
  starts from.  Three relations say what happens at a place:

      Gives p c a c'     from some frontier, `p` reads `a` and stops at `c'`
      Reads p c a c'     from every frontier, `p` reads `a` and stops at `c'`
      Refuses p c        from every frontier, `p` fails

  `Gives` is taken apart along the combinators, the other two are put together.
-/
import MetricFormula.Grammar.Formula

set_option autoImplicit false

namespace MetricFormula.Grammar

theorem run_nested {α : Type} (p : Matcher ExpressionTree → Matcher α) (c : Cursor)
    (f : Frontier) :
    (nested p).run c f = (p (expressionWithin Matcher.fail c.openings)).run c f := rfl

/-- The place after the blanks. -/
def Cursor.afterGap (c : Cursor) : Cursor :=
  c.past (c.rest.takeWhile Scan.isGap) (c.rest.dropWhile Scan.isGap)

/-- No blank comes next. -/
def Cursor.AtToken (c : Cursor) : Prop := ∀ d, c.rest.head? = some d → Scan.isGap d = false

theorem Cursor.atToken_afterGap (c : Cursor) : c.afterGap.AtToken := by
  intro d hd
  have hnot := List.head?_dropWhile_not Scan.isGap c.rest
  rw [show c.rest.dropWhile Scan.isGap = c.afterGap.rest from rfl, hd] at hnot
  simpa using hnot

theorem Cursor.AtToken.afterGap_eq {c : Cursor} (h : c.AtToken) : c.afterGap = c := by
  obtain ⟨rest, offset⟩ := c
  cases rest with
  | nil => rfl
  | cons d rest =>
      have hd := h d rfl
      simp [Cursor.afterGap, Cursor.past, hd]

@[simp] theorem Cursor.afterGap_afterGap (c : Cursor) : c.afterGap.afterGap = c.afterGap :=
  c.atToken_afterGap.afterGap_eq

/-! ## Taking a success apart -/

/-- From some frontier, `p` reads `a` from `c` on and stops at `c'`. -/
def Gives {α : Type} (p : Matcher α) (c : Cursor) (a : α) (c' : Cursor) : Prop :=
  ∃ f f', p.run c f = (some (a, c'), f')

namespace Gives

open Matcher

variable {α β : Type} {p q : Matcher α} {c c' : Cursor} {a : α}

theorem of_pure {b : α} (h : Gives (pure b) c a c') : a = b ∧ c' = c := by
  obtain ⟨f, f', h⟩ := h
  rw [run_pure] at h
  simp only [Prod.mk.injEq, Option.some.injEq] at h
  exact ⟨h.1.1.symm, h.1.2.symm⟩

theorem of_bind {k : α → Matcher β} {b : β} (h : Gives (p >>= k) c b c') :
    ∃ a d, Gives p c a d ∧ Gives (k a) d b c' := by
  obtain ⟨f, f', h⟩ := h
  rw [run_bind] at h
  rcases hp : p.run c f with ⟨_ | ⟨a, d⟩, g⟩
  · simp [hp] at h
  · rw [hp] at h
    exact ⟨a, d, ⟨f, g, hp⟩, ⟨g, f', h⟩⟩

theorem of_orElse (h : Gives (p <|> q) c a c') : Gives p c a c' ∨ Gives q c a c' := by
  obtain ⟨f, f', h⟩ := h
  rw [run_orElse] at h
  rcases hp : p.run c f with ⟨_ | ⟨b, d⟩, g⟩
  · rw [hp] at h
    exact Or.inr ⟨g, f', h⟩
  · rw [hp] at h
    simp only [Prod.mk.injEq, Option.some.injEq] at h
    obtain ⟨⟨rfl, rfl⟩, _⟩ := h
    exact Or.inl ⟨f, g, hp⟩

theorem of_named {rule : Rule} (h : Gives (named rule p) c a c') : Gives p c a c' := by
  obtain ⟨f, f', h⟩ := h
  rw [run_named] at h
  rcases hp : p.run c f with ⟨_ | ⟨b, d⟩, g⟩
  · simp [hp] at h
  · rw [hp] at h
    simp only [Prod.mk.injEq, Option.some.injEq] at h
    obtain ⟨⟨rfl, rfl⟩, _⟩ := h
    exact ⟨f, g, hp⟩

theorem of_fail : ¬Gives (fail : Matcher α) c a c' := by
  rintro ⟨f, f', h⟩
  simp at h

theorem of_offset {n : Nat} (h : Gives offset c n c') : n = c.offset ∧ c' = c := by
  obtain ⟨f, f', h⟩ := h
  rw [run_offset] at h
  simp only [Prod.mk.injEq, Option.some.injEq] at h
  exact ⟨h.1.1.symm, h.1.2.symm⟩

theorem of_scan {split : List Char → Option (List Char × List Char)} {read : List Char}
    (h : Gives (scan split) c read c') :
    ∃ rest, split c.rest = some (read, rest) ∧ c' = c.past read rest := by
  obtain ⟨f, f', h⟩ := h
  simp only [scan] at h
  split at h
  · rename_i read' rest' hsplit
    simp only [Prod.mk.injEq, Option.some.injEq] at h
    obtain ⟨⟨rfl, rfl⟩, _⟩ := h
    exact ⟨rest', hsplit, rfl⟩
  · simp at h

theorem of_satisfy {class_ : Char → Bool} {d : Char} (h : Gives (satisfy class_) c d c') :
    ∃ rest, c.rest = d :: rest ∧ class_ d = true ∧ c' = c.past [d] rest := by
  obtain ⟨f, f', h⟩ := h
  simp only [satisfy] at h
  split at h
  · rename_i e rest hrest
    split at h
    · rename_i he
      simp only [Prod.mk.injEq, Option.some.injEq] at h
      obtain ⟨⟨rfl, rfl⟩, _⟩ := h
      exact ⟨rest, hrest, he, rfl⟩
    · simp at h
  · simp at h

theorem of_char {d : Char} {u : Unit} (h : Gives (char d) c u c') :
    ∃ rest, c.rest = d :: rest ∧ c' = c.past [d] rest := by
  obtain ⟨e, c₁, he, hpure⟩ := h.of_bind
  obtain ⟨_, rfl⟩ := hpure.of_pure
  obtain ⟨rest, hrest, hclass, rfl⟩ := he.of_satisfy
  obtain rfl := eq_of_beq hclass
  exact ⟨rest, hrest, rfl⟩

theorem of_skipWhile {class_ : Char → Bool} {u : Unit} (h : Gives (skipWhile class_) c u c') :
    c' = c.past (c.rest.takeWhile class_) (c.rest.dropWhile class_) := by
  obtain ⟨f, f', h⟩ := h
  simp only [skipWhile, Prod.mk.injEq, Option.some.injEq] at h
  exact h.1.2.symm

theorem of_notAhead {d : Char} {u : Unit} (h : Gives (notAhead d) c u c') :
    c' = c ∧ c.rest.head? ≠ some d := by
  obtain ⟨f, f', h⟩ := h
  simp only [notAhead] at h
  split at h
  · rename_i e rest hrest
    split at h
    · simp at h
    · rename_i hne
      simp only [Prod.mk.injEq, Option.some.injEq] at h
      refine ⟨h.1.2.symm, ?_⟩
      rw [hrest, List.head?_cons]
      intro heq
      exact hne (by simpa using heq)
  · rename_i hrest
    simp only [Prod.mk.injEq, Option.some.injEq] at h
    exact ⟨h.1.2.symm, by rw [hrest]; simp⟩

theorem of_atEnd {u : Unit} (h : Gives atEnd c u c') : c' = c ∧ c.rest = [] := by
  obtain ⟨f, f', h⟩ := h
  simp only [atEnd] at h
  split at h
  · rename_i hrest
    simp only [Prod.mk.injEq, Option.some.injEq] at h
    exact ⟨h.1.2.symm, hrest⟩
  · simp at h

theorem of_spanned {span : Span} (h : Gives (spanned p) c (span, a) c') :
    Gives p c a c' ∧ span = ⟨c.offset, c'.offset⟩ := by
  obtain ⟨start, c₁, hstart, h⟩ := h.of_bind
  obtain ⟨b, c₂, hp, h⟩ := h.of_bind
  obtain ⟨stop, c₃, hstop, h⟩ := h.of_bind
  obtain ⟨heq, rfl⟩ := h.of_pure
  obtain ⟨rfl, rfl⟩ := hstart.of_offset
  obtain ⟨rfl, rfl⟩ := hstop.of_offset
  obtain ⟨rfl, rfl⟩ := Prod.mk.inj heq
  exact ⟨hp, rfl⟩

theorem of_lexeme {split : List Char → Option (List Char × List Char)} {l : Lexeme}
    (h : Gives (lexeme split) c l c') :
    ∃ rest, split c.rest = some (l.text.toList, rest) ∧ c' = c.past l.text.toList rest ∧
      l.span = ⟨c.offset, c'.offset⟩ := by
  obtain ⟨⟨span, read⟩, c₁, hread, h⟩ := h.of_bind
  obtain ⟨rfl, rfl⟩ := h.of_pure
  obtain ⟨hscan, rfl⟩ := hread.of_spanned
  obtain ⟨rest, hsplit, rfl⟩ := hscan.of_scan
  rw [String.toList_ofList]
  exact ⟨rest, hsplit, rfl, rfl⟩

end Gives

/-- One success after the other. -/
inductive Chain {α : Type} (p : Matcher α) : Cursor → List α → Cursor → Prop
  | nil {c : Cursor} : Chain p c [] c
  | cons {c d e : Cursor} {a : α} {as : List α} :
      Gives p c a d → Chain p d as e → Chain p c (a :: as) e

namespace Gives

open Matcher

variable {α : Type} {p : Matcher α} {c c' : Cursor} {as : List α}

theorem of_atMost {n : Nat} (h : Gives (p.atMost n) c as c') : Chain p c as c' := by
  induction n generalizing c as with
  | zero =>
      obtain ⟨rfl, rfl⟩ := h.of_pure
      exact .nil
  | succ n ih =>
      rcases h.of_orElse with h | h
      · obtain ⟨a, d, ha, h⟩ := h.of_bind
        obtain ⟨bs, e, hbs, h⟩ := h.of_bind
        obtain ⟨rfl, rfl⟩ := h.of_pure
        exact .cons ha (ih hbs)
      · obtain ⟨rfl, rfl⟩ := h.of_pure
        exact .nil

theorem of_many (h : Gives p.many c as c') : Chain p c as c' := by
  obtain ⟨f, f', h⟩ := h
  exact of_atMost (n := c.rest.length + 1) ⟨f, f', h⟩

theorem of_gap {u : Unit} (h : Gives gap c u c') : c' = c.afterGap := of_skipWhile h

/-- Parts with blanks before each of them; the blanks may also stand alone. -/
theorem of_repeated (h : Gives (repeated p) c as c') :
    (as = [] ∧ c' = c.afterGap) ∨
      ∃ a bs, as = a :: bs ∧ Chain (do gap; p) c (a :: bs) c' := by
  obtain ⟨u, d, hgap, h⟩ := h.of_bind
  rcases h.of_orElse with h | h
  · obtain ⟨a, e, ha, h⟩ := h.of_bind
    obtain ⟨bs, g, hbs, h⟩ := h.of_bind
    obtain ⟨rfl, rfl⟩ := h.of_pure
    refine Or.inr ⟨a, bs, rfl, .cons ?_ hbs.of_many⟩
    obtain ⟨f, f', hgap⟩ := hgap
    obtain ⟨f₁, f₂, ha⟩ := ha
    have hrun : (gap.run c f₁) = (some (u, d), f₁) := by
      simp only [gap, skipWhile, Prod.mk.injEq] at hgap ⊢
      exact ⟨hgap.1, trivial⟩
    exact ⟨f₁, f₂, by rw [run_bind, hrun]; exact ha⟩
  · obtain ⟨rfl, rfl⟩ := h.of_pure
    exact Or.inl ⟨rfl, hgap.of_gap⟩

end Gives

/-! ## Putting results together -/

/-- From every frontier, `p` reads `a` from `c` on and stops at `c'`. -/
def Reads {α : Type} (p : Matcher α) (c : Cursor) (a : α) (c' : Cursor) : Prop :=
  ∀ f, ∃ f', p.run c f = (some (a, c'), f')

/-- From every frontier, `p` fails at `c`. -/
def Refuses {α : Type} (p : Matcher α) (c : Cursor) : Prop :=
  ∀ f, ∃ f', p.run c f = (none, f')

section Rules

open Matcher

variable {α β : Type} {p q : Matcher α} {c c' d : Cursor} {a : α} {b : β} {k : α → Matcher β}

theorem Reads.unique {a' : α} (h : Reads p c a c') (h' : Reads p c a' d) : a = a' := by
  obtain ⟨f, hf⟩ := h Frontier.initial
  obtain ⟨f', hf'⟩ := h' Frontier.initial
  rw [hf] at hf'
  simp only [Prod.mk.injEq, Option.some.injEq] at hf'
  exact hf'.1.1

theorem reads_pure : Reads (pure a) c a c := fun f => ⟨f, rfl⟩

theorem Reads.bind (hp : Reads p c a d) (hk : Reads (k a) d b c') : Reads (p >>= k) c b c' := by
  intro f
  obtain ⟨f₁, h₁⟩ := hp f
  obtain ⟨f₂, h₂⟩ := hk f₁
  exact ⟨f₂, by rw [run_bind, h₁]; exact h₂⟩

theorem Refuses.bind (hp : Refuses p c) : Refuses (p >>= k) c := by
  intro f
  obtain ⟨f₁, h₁⟩ := hp f
  exact ⟨f₁, by rw [run_bind, h₁]⟩

theorem Reads.bind_refuses (hp : Reads p c a d) (hk : Refuses (k a) d) :
    Refuses (p >>= k) c := by
  intro f
  obtain ⟨f₁, h₁⟩ := hp f
  obtain ⟨f₂, h₂⟩ := hk f₁
  exact ⟨f₂, by rw [run_bind, h₁]; exact h₂⟩

theorem Reads.orElse (hp : Reads p c a c') : Reads (p <|> q) c a c' := by
  intro f
  obtain ⟨f₁, h₁⟩ := hp f
  exact ⟨f₁, by rw [run_orElse, h₁]⟩

theorem Refuses.orElse_reads (hp : Refuses p c) (hq : Reads q c a c') :
    Reads (p <|> q) c a c' := by
  intro f
  obtain ⟨f₁, h₁⟩ := hp f
  obtain ⟨f₂, h₂⟩ := hq f₁
  exact ⟨f₂, by rw [run_orElse, h₁]; exact h₂⟩

theorem Refuses.orElse (hp : Refuses p c) (hq : Refuses q c) : Refuses (p <|> q) c := by
  intro f
  obtain ⟨f₁, h₁⟩ := hp f
  obtain ⟨f₂, h₂⟩ := hq f₁
  exact ⟨f₂, by rw [run_orElse, h₁]; exact h₂⟩

theorem Reads.named {rule : Rule} (hp : Reads p c a c') : Reads (named rule p) c a c' := by
  intro f
  obtain ⟨f₁, h₁⟩ := hp f
  exact ⟨f₁, by rw [run_named, h₁]⟩

theorem Refuses.named {rule : Rule} (hp : Refuses p c) : Refuses (named rule p) c := by
  intro f
  obtain ⟨f₁, h₁⟩ := hp f
  exact ⟨f₁.record rule c.offset (f.count c.offset), by rw [run_named, h₁]⟩

theorem reads_offset : Reads offset c c.offset c := fun f => ⟨f, rfl⟩

theorem Reads.spanned (hp : Reads p c a c') :
    Reads (spanned p) c (⟨c.offset, c'.offset⟩, a) c' :=
  reads_offset.bind (hp.bind (reads_offset.bind reads_pure))

theorem Refuses.spanned (hp : Refuses p c) : Refuses (spanned p) c :=
  reads_offset.bind_refuses hp.bind

theorem reads_scan {split : List Char → Option (List Char × List Char)} {read rest : List Char}
    (h : split c.rest = some (read, rest)) : Reads (scan split) c read (c.past read rest) := by
  intro f
  exact ⟨f, by simp only [scan, h]⟩

theorem refuses_scan {split : List Char → Option (List Char × List Char)}
    (h : split c.rest = none) : Refuses (scan split) c := by
  intro f
  exact ⟨f, by simp only [scan, h]⟩

theorem reads_lexeme {split : List Char → Option (List Char × List Char)} {read rest : List Char}
    (h : split c.rest = some (read, rest)) :
    ∃ l c', Reads (lexeme split) c l c' ∧ l.text.toList = read ∧ c'.rest = rest :=
  ⟨_, _, (reads_scan h).spanned.bind reads_pure, String.toList_ofList, rfl⟩

theorem refuses_lexeme {split : List Char → Option (List Char × List Char)}
    (h : split c.rest = none) : Refuses (lexeme split) c :=
  (refuses_scan h).spanned.bind

theorem reads_char {e : Char} {rest : List Char} (h : c.rest = e :: rest) :
    ∃ c', Reads (char e) c () c' ∧ c'.rest = rest := by
  refine ⟨c.past [e] rest, Reads.bind (a := e) (d := c.past [e] rest) ?_ reads_pure, rfl⟩
  intro f
  exact ⟨f, by simp [satisfy, h]⟩

theorem refuses_char {e : Char} (h : c.rest.head? ≠ some e) : Refuses (char e) c := by
  refine Refuses.bind ?_
  intro f
  refine ⟨f, ?_⟩
  unfold satisfy
  dsimp only
  split
  · rename_i x rest hrest
    rw [if_neg]
    rintro hx
    rw [hrest, List.head?_cons, eq_of_beq hx] at h
    exact h rfl
  · rfl

theorem reads_notAhead {e : Char} (h : c.rest.head? ≠ some e) : Reads (notAhead e) c () c := by
  intro f
  refine ⟨f, ?_⟩
  unfold notAhead
  dsimp only
  split
  · rename_i x rest hrest
    rw [if_neg]
    rintro hx
    rw [hrest, List.head?_cons, eq_of_beq hx] at h
    exact h rfl
  · rfl

theorem reads_atEnd (h : c.rest = []) : Reads atEnd c () c := by
  intro f
  exact ⟨f, by simp only [atEnd, h]⟩

end Rules

/-! ## Blanks and repetitions -/

/-- One reading after the other, until the matcher fails.  At no place are there more
readings to come than characters. -/
inductive ReadsAll {α : Type} (p : Matcher α) : Cursor → List α → Cursor → Prop
  | nil {c : Cursor} : Refuses p c → ReadsAll p c [] c
  | cons {c d e : Cursor} {a : α} {as : List α} :
      Reads p c a d → as.length ≤ d.rest.length → ReadsAll p d as e → ReadsAll p c (a :: as) e

section Repetition

open Matcher

variable {α : Type} {p : Matcher α} {c c' : Cursor} {a : α} {as : List α}

theorem reads_gap : Reads gap c () c.afterGap := fun f => ⟨f, rfl⟩

theorem ReadsAll.atMost (h : ReadsAll p c as c') {n : Nat} (hn : as.length < n) :
    Reads (p.atMost n) c as c' := by
  induction h generalizing n with
  | nil hp =>
      obtain ⟨n, rfl⟩ := Nat.exists_eq_add_one_of_ne_zero (Nat.ne_of_gt hn)
      exact hp.bind.orElse_reads reads_pure
  | @cons c d e a as hp _ _ ih =>
      obtain ⟨n, rfl⟩ := Nat.exists_eq_add_one_of_ne_zero (Nat.ne_of_gt (Nat.zero_lt_of_lt hn))
      have hrest : Reads (p.atMost n) d as e := ih (Nat.lt_of_succ_lt_succ hn)
      exact (hp.bind (hrest.bind (b := a :: as) reads_pure)).orElse

/-- Parts with blanks before each of them.  If there is no part, the blanks are read
all the same. -/
theorem ReadsAll.repeated (h : ReadsAll (do gap; p) c as c') :
    ∃ d, Reads (repeated p) c as d ∧
      (d.rest = c'.rest ∨ d.rest = c'.rest.dropWhile Scan.isGap) := by
  cases h with
  | nil hp =>
      refine ⟨c.afterGap, reads_gap.bind (Refuses.orElse_reads (Refuses.bind ?_) reads_pure),
        Or.inr rfl⟩
      intro f
      exact hp f
  | @cons _ d _ a as hp hle hrest =>
      have hfirst : Reads p c.afterGap a d := hp
      have hmany : Reads (do gap; p : Matcher α).many d as c' :=
        hrest.atMost (Nat.lt_succ_of_le hle)
      exact ⟨c', reads_gap.bind (hfirst.bind (hmany.bind (b := a :: as) reads_pure)).orElse,
        Or.inl rfl⟩

end Repetition

end MetricFormula.Grammar
