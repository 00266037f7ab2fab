/-
  Proofs/Session: texts that are validated one after another.

  Validation records variables in a set, and what has been recorded outlives a failure.  If the
  set is kept from one text to the next, each text still comes to what it comes to alone, and
  the set grows by what the text would have recorded alone (`session_accumulates`).  That is
  nothing if there is no parse tree, the variables of the formula if there is one, and otherwise
  the variables of the terms that were complete before validation stopped (`Contributes`).
-/
import MetricFormula.Proofs.Interpretation.Recorded
import MetricFormula.Proofs.Interpretation.Trace

set_option autoImplicit false

namespace MetricFormula

open MetricFormula.Grammar

/-- Interprets texts, each with the depth that it may have, one after another: each from the
state that the one before it has left. -/
def Interpretation.session {σ ε τ φ : Type} (I : Interpretation σ ε τ φ) :
    List (Nat × String) → σ → List (Except Fault ε × σ)
  | [], _ => []
  | (maxDepth, source) :: texts, s =>
      let outcome := (I.run maxDepth source).runFrom s
      outcome :: I.session texts outcome.2

/-! ## What a text comes to does not depend on the names before it -/

namespace Validation

open Handled

/-- What a text comes to, and what it records, with nothing recorded before it. -/
def alone (functions : NameSet) (maxDepth : Nat) (source : String) : Except Fault Sum × NameSet :=
  ((Interpretation.validation functions).run maxDepth source).runFrom .empty

section Adds

variable {α β : Type} {x : Handled NameSet α} {k : α → Handled NameSet β}

/-- From any names, a step comes to the same result and records the same names. -/
def Adds (x : Handled NameSet α) : Prop :=
  ∃ result added, ∀ s : NameSet, x.runFrom s = (result, s.union added)

/-- A step that does not look at the names and leaves them alone. -/
theorem adds_nothing (result : Except Fault α) (hx : ∀ s, x.runFrom s = (result, s)) : Adds x :=
  ⟨result, .empty, hx⟩

theorem Adds.bind (hx : Adds x) (hk : ∀ a, Adds (k a)) : Adds (x >>= k) := by
  obtain ⟨result, added, hx⟩ := hx
  rcases result with e | a
  · refine ⟨.error e, added, fun s => ?_⟩
    rw [runFrom_bind, hx]
  · obtain ⟨result', added', hk⟩ := hk a
    refine ⟨result', added.union added', fun s => ?_⟩
    rw [runFrom_bind, hx, ← NameSet.union_assoc]
    exact hk _

/-- The account of what is added. -/
def adding : Account NameSet where
  Holds _ _ _ x := Adds x
  pure _ a := adds_nothing (.ok a) fun _ => rfl
  bind := Adds.bind
  congr hx _ _ := hx

theorem factor_adds : ∀ a : Operand Factor, Adds (factor a)
  | .value a => adds_nothing (.ok a) fun _ => rfl
  | .variable name _ =>
      ⟨.ok (.variable name), .ofList [name], fun s => by rw [← NameSet.insert_eq_union]; rfl⟩

theorem factors_adds (xs : List (Operand Factor)) : Adds (factors xs) := by
  induction xs with
  | nil => exact adds_nothing (.ok []) fun _ => rfl
  | cons a xs ih =>
      refine (factor_adds a).bind fun b => ih.bind fun bs => ?_
      exact adds_nothing (.ok (b :: bs)) fun _ => rfl

theorem validation_adds (functions : NameSet) :
    (Interpretation.validation functions).Accounts adding where
  expression _ _ _ := adds_nothing _ fun _ => rfl
  term numerator denominator _ := (factors_adds numerator).bind fun _ =>
    (factors_adds denominator).bind fun _ => adds_nothing _ fun _ => rfl
  enterCall _ _ := adds_nothing _ fun _ => rfl
  call name arguments span := by
    change Adds (if functions.contains name then _ else _)
    split
    · exact adds_nothing _ fun _ => rfl
    · exact adds_nothing _ fun _ => rfl
  constant _ _ := adds_nothing _ fun _ => rfl
  group _ _ := adds_nothing _ fun _ => rfl

end Adds

/-- From any names, a text comes to what it comes to alone, and records what it records alone. -/
theorem runFrom_run_eq_alone (functions : NameSet) (maxDepth : Nat) (source : String)
    (s : NameSet) :
    ((Interpretation.validation functions).run maxDepth source).runFrom s =
      ((alone functions maxDepth source).1, s.union (alone functions maxDepth source).2) := by
  have hadds : Adds ((Interpretation.validation functions).run maxDepth source) := by
    unfold Interpretation.run
    cases Interpretation.parse maxDepth source with
    | error e => exact adds_nothing (.error e) fun _ => rfl
    | ok t => exact Interpretation.walk_holds (validation_adds functions) t
  obtain ⟨result, added, hrun⟩ := hadds
  rw [alone, hrun, hrun, NameSet.empty_union]

end Validation

/-! ## The terms that a trace shows to be complete -/

namespace Operand

variable {φ ψ : Type} {name : String}

/-- The references that operands leave are the variables among them. -/
theorem mem_pending {xs : List (Operand φ)} :
    name ∈ (xs.flatMap Operand.pending).map Lexeme.text ↔ ∃ place, .variable name place ∈ xs := by
  rw [List.mem_map]
  constructor
  · rintro ⟨l, hl, rfl⟩
    obtain ⟨a | ⟨name, place⟩, hx, hpending⟩ := List.mem_flatMap.mp hl
    · exact absurd hpending List.not_mem_nil
    · obtain rfl := List.mem_singleton.mp hpending
      exact ⟨place, hx⟩
  · rintro ⟨place, hx⟩
    exact ⟨⟨name, place⟩, List.mem_flatMap.mpr ⟨_, hx, List.mem_singleton_self _⟩, rfl⟩

/-- Looking at the values in another way leaves the variables. -/
theorem variable_mem_map {view : φ → ψ} {xs : List (Operand φ)} {place : Span} :
    .variable name place ∈ xs.map (·.map view) ↔ .variable name place ∈ xs := by
  rw [List.mem_map]
  constructor
  · rintro ⟨a | ⟨other, place'⟩, hx, heq⟩
    · cases heq
    · cases heq
      exact hx
  · exact fun hx => ⟨_, hx, rfl⟩

end Operand

/-- A term that was completed, with a variable of this name among its factors. -/
def TraceEntry.Records (name : String) : TraceEntry → Prop
  | ⟨.term numerator denominator _, none⟩ =>
      ∃ place, .variable name place ∈ numerator ++ denominator
  | _ => False

/-- A name is recorded exactly if a completed term of the trace has a variable of it. -/
def Tallies (r : List TraceEntry × NameSet) : Prop :=
  ∀ name, name ∈ r.2 ↔ ∃ entry ∈ r.1, entry.Records name

namespace Handled

variable {σ α β : Type} {P : σ → Prop}

/-- A property of states that a step keeps. -/
def Keeps (P : σ → Prop) (x : Handled σ α) : Prop := ∀ s, P s → P (x.runFrom s).2

theorem Keeps.bind {x : Handled σ α} {k : α → Handled σ β} (hx : Keeps P x)
    (hk : ∀ a, Keeps P (k a)) : Keeps P (x >>= k) := by
  intro s hs
  have hstate := hx s hs
  rw [runFrom_bind]
  rcases hrun : x.runFrom s with ⟨e | a, s'⟩ <;> rw [hrun] at hstate
  · exact hstate
  · exact hk a s' hstate

/-- The account of what is kept. -/
def keeping (P : σ → Prop) : Account σ where
  Holds _ _ _ x := Keeps P x
  pure _ _ _ hs := hs
  bind := Keeps.bind
  congr hx _ _ := hx

end Handled

namespace Validation

open Handled Interpretation

variable {α β φ : Type}

/-- A call of a handler that adds the names that its entry shows. -/
theorem tracedStep_tallies {call : NumberedCall} {number : Nat → α → β} {x : Handled NameSet α}
    (h : ∀ s name, name ∈ (x.runFrom s).2 ↔
      name ∈ s ∨ TraceEntry.Records name ⟨call, faultOf (x.runFrom s).1⟩) :
    Keeps Tallies (tracedStep call number x) := by
  rintro ⟨entries, s⟩ hs name
  change name ∈ (x.runFrom s).2 ↔ ∃ entry ∈ entries ++ [⟨call, faultOf (x.runFrom s).1⟩], _
  rw [h, hs name]
  simp [or_and_right, exists_or]

/-- A call that is not about a term, and leaves the names alone. -/
theorem tracedStep_tallies_of_same {call : NumberedCall} {number : Nat → α → β}
    {x : Handled NameSet α} (hcall : ∀ name fault?, ¬TraceEntry.Records name ⟨call, fault?⟩)
    (hx : ∀ s, (x.runFrom s).2 = s) : Keeps Tallies (tracedStep call number x) :=
  tracedStep_tallies fun s name => by rw [hx, or_iff_left (hcall name _)]

/-- A term adds the variables among its operands, and its entry shows them. -/
theorem term_tallies (functions : NameSet) {number : Nat → Product → β}
    {numerator denominator : List (Operand φ)} {view : φ → Nat} {view' : φ → Factor}
    {span : Span} :
    Keeps Tallies (tracedStep
      (.term (numerator.map (·.map view)) (denominator.map (·.map view)) span) number
      ((validation functions).term (numerator.map (·.map view')) (denominator.map (·.map view'))
        span)) := by
  refine tracedStep_tallies fun s name => ?_
  obtain ⟨a, s', hrun, hnames⟩ := term_runFrom functions (numerator.map (·.map view'))
    (denominator.map (·.map view')) span s
  rw [hrun, hnames name, ← List.flatMap_append, Operand.mem_pending]
  simp only [faultOf, TraceEntry.Records, ← List.map_append, Operand.variable_mem_map]

theorem traced_tallies (functions : NameSet) :
    (validation functions).traced.Accounts (keeping Tallies) where
  expression _ _ _ := tracedStep_tallies_of_same (fun _ _ h => h) fun _ => rfl
  term _ _ _ := term_tallies functions
  enterCall _ _ := tracedStep_tallies_of_same (fun _ _ h => h) fun _ => rfl
  call name _ span :=
    tracedStep_tallies_of_same (fun _ _ h => h) (call_keeps functions name _ span)
  constant _ _ := tracedStep_tallies_of_same (fun _ _ h => h) fun _ => rfl
  group _ _ := tracedStep_tallies_of_same (fun _ _ h => h) fun _ => rfl

/-- The trace of a text shows what it records alone. -/
theorem alone_tallies (functions : NameSet) (maxDepth : Nat) (source : String) :
    Tallies ((validation functions).trace maxDepth source .empty,
      (alone functions maxDepth source).2) := by
  have hstart : Tallies ([], NameSet.empty) := fun name => by simp
  rw [alone, runFrom_run_eq (validation functions) maxDepth source [] .empty]
  unfold Interpretation.trace run
  cases parse maxDepth source with
  | error e => exact hstart
  | ok t => exact walk_holds (traced_tallies functions) t ([], .empty) hstart

end Validation

/-! ## What a text contributes -/

/-- The names that one of several texts adds to those recorded before it. -/
structure Contributes (functions : NameSet) (maxDepth : Nat) (source : String)
    (names : NameSet) : Prop where
  /-- Nothing, if the text nests too deeply or does not match the grammar. -/
  rejected : ∀ e, Interpretation.parse maxDepth source = .error e → names = .empty
  /-- The variables of the formula that it stands for. -/
  validated : ∀ s, (Validation.alone functions maxDepth source).1 = .ok s → names = s.variables
  /-- If validation stops, that is at the first literal or call that offends; then the variables
  of the terms that end before it ends, and so not of those around it. -/
  stopped : ∀ t e, Interpretation.parse maxDepth source = .ok t →
    (Validation.alone functions maxDepth source).1 = .error e →
    ∃ c : Construct, c.IsFirstOffender functions t.constructs ∧ e = c.fault ∧
      ∀ name, name ∈ names ↔ NamedBefore c.span.stop t.terms name
  /-- In any case, the variables of the terms that were completed before validation came to its
  result. -/
  completed : ∀ name, name ∈ names ↔
    ∃ entry ∈ (Interpretation.validation functions).trace maxDepth source .empty,
      entry.Records name

/-- What a text records alone is what it contributes. -/
theorem Validation.alone_contributes (functions : NameSet) (maxDepth : Nat) (source : String) :
    Contributes functions maxDepth source (alone functions maxDepth source).2 where
  rejected e h := by
    rw [alone, Interpretation.run, h]
    rfl
  validated s h := by
    rcases hrun : alone functions maxDepth source with ⟨result, names⟩
    rw [hrun] at h
    obtain rfl : result = .ok s := h
    have hvalidate : Policy.validate ⟨maxDepth, functions⟩ source = .ok ⟨source, s, names⟩ := by
      rw [alone] at hrun
      simp only [Policy.validate, hrun]
    obtain ⟨t, ht, -, rfl : s = t.phrase.sum⟩ := validate_eq_ok_iff.mp ⟨_, hvalidate, rfl⟩
    have hnames : names = .ofList (t.references.map Lexeme.text) :=
      Policy.freeVariables_of_parse ht hvalidate
    ext name
    rw [hnames, NameSet.mem_ofList, Sum.mem_variables, t.mem_names]
  stopped t e h he := by
    obtain ⟨ps, n, m, -, hstands⟩ := tree_stands (Interpretation.parse_eq_ok.mp h).2
    have hrun : alone functions maxDepth source =
        ((Interpretation.validation functions).walk t).runFrom .empty := by
      rw [alone, Interpretation.run, h]
    have hcollected : Collected functions t.constructs t.terms nothingPending [] .empty
        (alone functions maxDepth source) := hrun ▸ walk_collects hstands .empty
    generalize alone functions maxDepth source = r at hcollected he
    cases hcollected with
    | ok _ _ _ => cases he
    | @error c names hfirst hnames =>
        cases he
        exact ⟨c, hfirst, rfl, fun name => by simp [hnames name]⟩
  completed := alone_tallies functions maxDepth source

/-- Texts that come to some results one after another, each with the names that are recorded
after it: every result is that of the text alone, and the names are those before it and what it
contributes. -/
inductive Accumulates (functions : NameSet) :
    NameSet → List (Nat × String) → List (Except Fault Sum × NameSet) → Prop
  | nil {names : NameSet} : Accumulates functions names [] []
  | cons {names contribution : NameSet} {maxDepth : Nat} {source : String}
      {texts : List (Nat × String)} {outcomes : List (Except Fault Sum × NameSet)} :
      Contributes functions maxDepth source contribution →
      Accumulates functions (names.union contribution) texts outcomes →
      Accumulates functions names ((maxDepth, source) :: texts)
        (((Validation.alone functions maxDepth source).1, names.union contribution) :: outcomes)

/-- Validating texts one after another with one set of names, each comes to what it comes to
alone, and the names after it are those before it and what it contributes. -/
theorem session_accumulates (functions names : NameSet) (texts : List (Nat × String)) :
    Accumulates functions names texts
      ((Interpretation.validation functions).session texts names) := by
  induction texts generalizing names with
  | nil => exact .nil
  | cons text texts ih =>
      obtain ⟨maxDepth, source⟩ := text
      rw [Interpretation.session, Validation.runFrom_run_eq_alone]
      exact .cons (Validation.alone_contributes functions maxDepth source) (ih _)

/-- A literal out of range inside a term leaves the terms recorded that are complete by then,
and what comes before or after such a text is recorded as ever. -/
example :
    ((Interpretation.validation (.ofList ["norm"])).session
      [(100, "norm(a / b)"), (100, "x + u * (v + 1e999) * w"), (100, "y +"), (100, "z")]
      .empty).map Prod.snd =
    [.ofList ["a", "b"], .ofList ["a", "b", "x", "v"], .ofList ["a", "b", "x", "v"],
      .ofList ["a", "b", "x", "v", "z"]] := by
  decide +kernel

end MetricFormula
