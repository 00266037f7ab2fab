/-
  Proofs/Grammar/Leaves: what a matcher leaves, the frontier included.

  `Leaves p c f Q E` says that from the place `c` and the frontier `f` the matcher `p` either
  succeeds with a place and a frontier of which `Q` holds, or fails with a frontier of which
  `E` holds.  There is one rule for each combinator.

  A repetition keeps what each part keeps (`leaves_repeated`).  A failed rule leaves the
  frontier alone if it was tried before the furthest failure (`Frontier.record_of_lt`), and
  adds itself if nothing failed there meanwhile (`Frontier.record_kept`).
-/
import MetricFormula.Proofs.Grammar.Matcher

set_option autoImplicit false

namespace MetricFormula.Grammar

/-! ## Recording failures -/

namespace Frontier

variable {f : Frontier} {rule : Rule} {n before : Nat}

/-- The failures that are kept for an offset. -/
def kept (f : Frontier) (n : Nat) : List Rule := if n = f.offset then f.expected else []

theorem length_kept (f : Frontier) (n : Nat) : (f.kept n).length = f.count n := by
  unfold kept count
  split <;> rfl

@[simp] theorem kept_self (rules : List Rule) : (Frontier.mk n rules).kept n = rules := by
  simp [kept]

@[simp] theorem count_self (rules : List Rule) :
    (Frontier.mk n rules).count n = rules.length := by
  simp [count]

/-- A rule that was tried before the furthest failure is not recorded. -/
theorem record_of_lt (h : n < f.offset) : f.record rule n before = f := by
  unfold record
  rw [if_neg (by omega : ¬n = f.offset), if_neg (by omega : ¬f.offset < n), ite_self]

/-- A rule whose parts left no failure is added to what was kept. -/
theorem record_kept (rule : Rule) (h : f.offset ≤ n) :
    f.record rule n (f.count n) = ⟨n, f.kept n ++ [rule]⟩ := by
  unfold record
  rw [if_neg (by omega)]
  by_cases heq : n = f.offset
  · rw [if_pos heq, ← f.length_kept n, kept, if_pos heq, List.take_length]
  · rw [if_neg heq, if_pos (by omega), kept, if_neg heq, List.nil_append]

/-- A rule replaces what its parts left, unless that is a single failure. -/
theorem record_self (rules : List Rule) : (Frontier.mk n rules).record rule n before =
    if rules.length = before + 1 then ⟨n, rules⟩ else ⟨n, rules.take before ++ [rule]⟩ := by
  unfold record
  rw [count_self, if_pos rfl]

/-- Nothing has failed at an offset, nor beyond it. -/
def Behind (f : Frontier) (n : Nat) : Prop := f.offset ≤ n ∧ f.kept n = []

theorem behind_of_lt (h : f.offset < n) : f.Behind n := by
  refine ⟨Nat.le_of_lt h, ?_⟩
  rw [kept, if_neg (by omega)]

theorem Behind.count_eq (h : f.Behind n) : f.count n = 0 := by
  rw [← length_kept, h.2, List.length_nil]

/-- A rule that is the first to fail at an offset stands alone there. -/
theorem Behind.record_eq (h : f.Behind n) : f.record rule n 0 = ⟨n, [rule]⟩ := by
  have hkept := record_kept rule h.1
  rwa [h.count_eq, h.2, List.nil_append] at hkept

/-- A rule at whose start nothing had failed leaves at most one failure there. -/
theorem length_expected_record (h : (f.record rule n 0).offset = n) :
    (f.record rule n 0).expected.length = 1 := by
  unfold record at h ⊢
  split
  · rename_i hcount
    rw [if_pos hcount] at h
    rwa [count, if_pos h.symm] at hcount
  · rename_i hcount
    rw [if_neg hcount] at h
    split
    · rfl
    · rename_i hne
      rw [if_neg hne] at h
      split
      · rfl
      · rename_i hlt
        rw [if_neg hlt] at h
        exact absurd h.symm hne

end Frontier

/-! ## Rules for combinators -/

/-- From `c` and `f`, `p` succeeds with a place and a frontier of which `Q` holds, or fails
with a frontier of which `E` holds. -/
structure Leaves {α : Type} (p : Matcher α) (c : Cursor) (f : Frontier)
    (Q : Cursor → Frontier → Prop) (E : Frontier → Prop) : Prop where
  outcome :
    match p.run c f with
    | (some (_, c'), f') => Q c' f'
    | (none, f') => E f'

section Rules

open Matcher

variable {α β : Type} {p q : Matcher α} {k : α → Matcher β} {c : Cursor} {f : Frontier}
  {Q Q' : Cursor → Frontier → Prop} {E E' : Frontier → Prop}

theorem Leaves.mono (h : Leaves p c f Q E) (hQ : ∀ c' f', Q c' f' → Q' c' f')
    (hE : ∀ f', E f' → E' f') : Leaves p c f Q' E' := by
  obtain ⟨h⟩ := h
  constructor
  rcases hp : p.run c f with ⟨_ | ⟨a, c'⟩, f'⟩
  · rw [hp] at h
    exact hE f' h
  · rw [hp] at h
    exact hQ c' f' h

theorem Leaves.of_run_none {f' : Frontier} (h : Leaves p c f Q E) (hrun : p.run c f = (none, f')) :
    E f' := by
  obtain ⟨h⟩ := h
  rwa [hrun] at h

theorem Leaves.of_run_eq (h : Leaves p c f Q E) (heq : q.run c f = p.run c f) :
    Leaves q c f Q E := by
  obtain ⟨h⟩ := h
  rw [← heq] at h
  exact ⟨h⟩

theorem leaves_pure {a : α} (h : Q c f) : Leaves (pure a) c f Q E := ⟨h⟩

theorem Leaves.bind (h : Leaves p c f Q E)
    (hk : ∀ a c' f', Q c' f' → Leaves (k a) c' f' Q' E) : Leaves (p >>= k) c f Q' E := by
  obtain ⟨h⟩ := h
  constructor
  rw [run_bind]
  rcases hp : p.run c f with ⟨_ | ⟨a, c'⟩, f'⟩
  · rw [hp] at h
    exact h
  · rw [hp] at h
    exact (hk a c' f' h).outcome

/-- A first part whose failure says more than is asked. -/
theorem Leaves.andThen (h : Leaves p c f Q E') (hE : ∀ f', E' f' → E f')
    (hk : ∀ a c' f', Q c' f' → Leaves (k a) c' f' Q' E) : Leaves (p >>= k) c f Q' E :=
  (h.mono (fun _ _ hQ => hQ) hE).bind hk

/-- What remains to be done only rearranges the result. -/
theorem Leaves.finish (h : Leaves p c f Q E) (hk : ∀ a, ∃ b, k a = pure b) :
    Leaves (p >>= k) c f Q E := by
  refine h.bind fun a c' f' hQ => ?_
  obtain ⟨b, hb⟩ := hk a
  rw [hb]
  exact leaves_pure hQ

/-- A first part that fails, whatever comes after it. -/
theorem Leaves.refused (h : Leaves p c f (fun _ _ => False) E) : Leaves (p >>= k) c f Q E :=
  h.bind fun _ _ _ hQ => hQ.elim

theorem Leaves.orElse (h : Leaves p c f Q E) (hq : ∀ f', E f' → Leaves q c f' Q E') :
    Leaves (p <|> q) c f Q E' := by
  obtain ⟨h⟩ := h
  constructor
  rw [run_orElse]
  rcases hp : p.run c f with ⟨_ | ⟨a, c'⟩, f'⟩
  · rw [hp] at h
    exact (hq f' h).outcome
  · rw [hp] at h
    exact h

theorem Leaves.named {rule : Rule}
    (h : Leaves p c f Q fun f' => E (f'.record rule c.offset (f.count c.offset))) :
    Leaves (named rule p) c f Q E := by
  obtain ⟨h⟩ := h
  constructor
  rw [run_named]
  rcases hp : p.run c f with ⟨_ | ⟨a, c'⟩, f'⟩
  · rw [hp] at h
    exact h
  · rw [hp] at h
    exact h

theorem leaves_offset (h : Q c f) : Leaves offset c f Q E := ⟨h⟩

theorem Leaves.spanned (h : Leaves p c f Q E) : Leaves (spanned p) c f Q E := by
  refine (leaves_offset (Q := fun c' f' => c' = c ∧ f' = f) ⟨rfl, rfl⟩).bind ?_
  rintro _ _ _ ⟨rfl, rfl⟩
  exact h.bind fun a c' f' hQ => (leaves_offset hQ).finish fun _ => ⟨_, rfl⟩

/-- A rule that keeps what it covers with its parts. -/
theorem Leaves.node {rule : Rule} {k : Span × α → Matcher β}
    (h : Leaves p c f Q fun f' => E (f'.record rule c.offset (f.count c.offset)))
    (hk : ∀ r, ∃ b, k r = pure b) : Leaves (Matcher.named rule (Grammar.spanned p >>= k)) c f Q E :=
  Leaves.named (h.spanned.finish hk)

/-- Blanks, and then a matcher after them. -/
theorem leaves_gap_bind {u : Unit → Matcher β} (h : Leaves (u ()) c.afterGap f Q E) :
    Leaves (gap >>= u) c f Q E := ⟨h.outcome⟩

theorem leaves_lexeme {split : List Char → Option (List Char × List Char)}
    (hsome : ∀ read rest, split c.rest = some (read, rest) → Q (c.past read rest) f)
    (hnone : split c.rest = none → E f) : Leaves (lexeme split) c f Q E := by
  have hscan : Leaves (scan split) c f Q E := by
    constructor
    unfold scan
    dsimp only
    cases hsplit : split c.rest with
    | none => exact hnone hsplit
    | some r => exact hsome r.1 r.2 hsplit
  exact hscan.spanned.finish fun _ => ⟨_, rfl⟩

theorem leaves_char {d : Char} (hhead : ∀ rest, c.rest = d :: rest → Q (c.past [d] rest) f)
    (hnot : c.rest.head? ≠ some d → E f) : Leaves (char d) c f Q E := by
  have hsatisfy : Leaves (satisfy (· == d)) c f Q E := by
    constructor
    unfold satisfy
    dsimp only
    split
    · rename_i hrun
      split at hrun
      · rename_i e rest hrest
        split at hrun
        · rename_i he
          obtain rfl := eq_of_beq he
          simp only [Prod.mk.injEq, Option.some.injEq] at hrun
          obtain ⟨⟨_, rfl⟩, rfl⟩ := hrun
          exact hhead rest hrest
        · simp at hrun
      · simp at hrun
    · rename_i hrun
      split at hrun
      · rename_i e rest hrest
        split at hrun
        · simp at hrun
        · rename_i he
          simp only [Prod.mk.injEq, true_and] at hrun
          subst hrun
          apply hnot
          rw [hrest, List.head?_cons]
          intro heq
          exact he (by simpa using heq)
      · rename_i hrest
        simp only [Prod.mk.injEq, true_and] at hrun
        subst hrun
        exact hnot (by simp [hrest])
  exact hsatisfy.finish fun _ => ⟨_, rfl⟩

theorem leaves_notAhead {d : Char} (hnot : c.rest.head? ≠ some d → Q c f)
    (hhead : c.rest.head? = some d → E f) : Leaves (notAhead d) c f Q E := by
  by_cases h : c.rest.head? = some d
  · obtain ⟨rest, hrest⟩ := List.head?_eq_some_iff.mp h
    have hrun : (notAhead d).run c f = (none, f) := by simp [notAhead, hrest]
    exact ⟨by rw [hrun]; exact hhead h⟩
  · obtain ⟨f', hrun⟩ := reads_notAhead h f
    have hkeeps : f' = f := by
      unfold notAhead at hrun
      dsimp only at hrun
      split at hrun
      · split at hrun
        · simp at hrun
        · exact (Prod.mk.inj hrun).2.symm
      · exact (Prod.mk.inj hrun).2.symm
    exact ⟨by rw [hrun, hkeeps]; exact hnot h⟩

theorem leaves_atEnd (hend : c.rest = [] → Q c f) (hnot : c.rest ≠ [] → E f) :
    Leaves atEnd c f Q E := by
  constructor
  unfold atEnd
  dsimp only
  cases hrest : c.rest with
  | nil => exact hend hrest
  | cons d rest => exact hnot (by simp [hrest])

/-- A symbol that is read with its place. -/
theorem leaves_placed {rule : Rule} {x : α} {d : Char}
    (hhead : ∀ rest, c.rest = d :: rest → Q (c.past [d] rest) f)
    (hnot : c.rest.head? ≠ some d → E (f.record rule c.offset (f.count c.offset))) :
    Leaves (Matcher.named rule do
      let place ← offset
      char d
      pure (x, place)) c f Q E := by
  apply Leaves.named
  refine (leaves_offset (Q := fun c' f' => c' = c ∧ f' = f) ⟨rfl, rfl⟩).bind ?_
  rintro _ _ _ ⟨rfl, rfl⟩
  exact (leaves_char hhead hnot).finish fun _ => ⟨_, rfl⟩

/-! ## Repetition -/

section Repetition

variable {Mid End : Cursor → Frontier → Prop}

theorem leaves_atMost (hstep : ∀ c f, Mid c f → Leaves p c.afterGap f
      (fun c' f' => Mid c' f' ∧ c'.rest.length < c.rest.length) (fun f' => End c f')) :
    ∀ (n : Nat) (c : Cursor) (f : Frontier), Mid c f → c.rest.length < n →
    Leaves ((do gap; p : Matcher α).atMost n) c f End fun _ => False
  | 0, _, _, _, hlen => absurd hlen (Nat.not_lt_zero _)
  | n + 1, c, f, hmid, hlen => by
      refine Leaves.orElse (E := fun f' => End c f') ?_ fun f' hend => leaves_pure hend
      refine (leaves_gap_bind (hstep c f hmid)).bind ?_
      rintro a c' f' ⟨hmid', hlt⟩
      have hrest := leaves_atMost hstep n c' f' hmid' (by omega)
      exact hrest.andThen (fun _ h => h.elim) fun _ _ _ hend => leaves_pure hend

/-- A repetition that starts with `Mid` comes to `End`, if every part keeps `Mid` and reads on
where it succeeds, and brings `End` about where it fails. -/
theorem leaves_repeated (hstep : ∀ c f, Mid c f → Leaves p c.afterGap f
      (fun c' f' => Mid c' f' ∧ c'.rest.length < c.rest.length) (fun f' => End c f'))
    (hgap : ∀ c f, End c f → End c.afterGap f) (hmid : Mid c f) :
    Leaves (repeated p) c f End fun _ => False := by
  refine leaves_gap_bind ?_
  refine Leaves.orElse (E := fun f' => End c f') ?_ fun f' hend => leaves_pure (hgap c f' hend)
  refine (hstep c f hmid).bind ?_
  rintro a c' f' ⟨hmid', _⟩
  have hmany : Leaves (do gap; p : Matcher α).many c' f' End fun _ => False :=
    ⟨(leaves_atMost hstep (c'.rest.length + 1) c' f' hmid' (Nat.lt_succ_self _)).outcome⟩
  exact hmany.andThen (fun _ h => h.elim) fun _ _ _ hend => leaves_pure hend

end Repetition

end Rules

end MetricFormula.Grammar
