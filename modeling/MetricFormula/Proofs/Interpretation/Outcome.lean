/-
  Proofs/Interpretation/Outcome: the parts that walks over a parse tree have in common.

  A step without a state comes to its result alone (`Handled.outcome`), and a row of steps
  to the results in a row (`Handled.outcome_bind`).  Checking and evaluating a text are the
  outcomes of walks over its parse tree (`Policy.check_eq`, `Policy.evaluate_eq`), which it
  has if it does not nest too deeply and matches the grammar (`parse_eq_ok`).
-/
import MetricFormula.Formula

set_option autoImplicit false

namespace MetricFormula

open MetricFormula.Grammar

/-- A step and then another one come to a result if both do. -/
theorem bind_eq_ok {ε α β : Type} {x : Except ε α} {k : α → Except ε β} {b : β} :
    (x >>= k) = .ok b ↔ ∃ a, x = .ok a ∧ k a = .ok b := by
  cases x with
  | error e => simp [bind, Except.bind]
  | ok a => simp [bind, Except.bind]

/-- A step and then another one fail if the first one fails or the second one does after it. -/
theorem bind_eq_error {ε α β : Type} {x : Except ε α} {k : α → Except ε β} {e : ε} :
    (x >>= k) = .error e ↔ x = .error e ∨ ∃ a, x = .ok a ∧ k a = .error e := by
  cases x with
  | error e' => simp [bind, Except.bind]
  | ok a => simp [bind, Except.bind]

theorem map_eq_error {ε α β : Type} {x : Except ε α} {f : α → β} {e : ε} :
    x.map f = .error e ↔ x = .error e := by
  cases x with
  | error e' => simp [Except.map]
  | ok a => simp [Except.map]

theorem exists_eq_ok {ε α : Type} {x : Except ε α} (h : x.isOk = true) : ∃ a, x = .ok a := by
  cases x with
  | error e => simp [Except.isOk, Except.toBool] at h
  | ok a => exact ⟨a, rfl⟩

theorem exists_eq_error {ε α : Type} {x : Except ε α} (h : x.isOk = false) :
    ∃ e, x = .error e := by
  cases x with
  | error e => exact ⟨e, rfl⟩
  | ok a => simp [Except.isOk, Except.toBool] at h

theorem Evaluation.lift_eq_ok {α : Type} {x : Except LengthMismatch α} {a : α} :
    lift x = .ok a ↔ x = .ok a := by
  cases x <;> simp [lift]

namespace Handled

variable {α β : Type}

/-- The result of a step without a state. -/
def outcome (x : Handled Unit α) : Except Fault α := (x.runFrom ()).1

@[simp] theorem outcome_pure (a : α) : (pure a : Handled Unit α).outcome = .ok a := rfl

@[simp] theorem outcome_throw (e : Fault) : (throw e : Handled Unit α).outcome = .error e := rfl

@[simp] theorem outcome_ofExcept (x : Except Fault α) : (ofExcept x).outcome = x := rfl

@[simp] theorem outcome_bind (x : Handled Unit α) (k : α → Handled Unit β) :
    (x >>= k).outcome = x.outcome >>= fun a => (k a).outcome := by
  unfold outcome
  rw [runFrom_bind]
  rcases x.runFrom () with ⟨e | a, u⟩
  · rfl
  · rfl

theorem outcome_bind_eq_ok {x : Handled Unit α} {k : α → Handled Unit β} {b : β} :
    (x >>= k).outcome = .ok b ↔ ∃ a, x.outcome = .ok a ∧ (k a).outcome = .ok b := by
  rw [outcome_bind, bind_eq_ok]

end Handled

namespace Interpretation

/-! ## What operators join -/

section Joined

variable {ι α : Type} {P : α → Prop}

/-- What holds of everything that is joined holds of what some operators join. -/
theorem forall_joined {steps : List (ι × α)} (h : ∀ s ∈ steps, P s.2) (test : ι × α → Bool) :
    ∀ x ∈ (steps.filter test).map (·.2), P x := by
  intro x hx
  obtain ⟨s, hs, rfl⟩ := List.mem_map.mp hx
  exact h s (List.mem_filter.mp hs).1

theorem forall_added {a : α} {steps : List (AdditiveOperator × α)} (ha : P a)
    (h : ∀ s ∈ steps, P s.2) : ∀ x ∈ added a steps, P x :=
  List.forall_mem_cons.mpr ⟨ha, forall_joined h _⟩

theorem forall_subtracted {steps : List (AdditiveOperator × α)} (h : ∀ s ∈ steps, P s.2) :
    ∀ x ∈ subtracted steps, P x :=
  forall_joined h _

theorem forall_multiplied {a : α} {steps : List (MultiplicativeOperator × α)} (ha : P a)
    (h : ∀ s ∈ steps, P s.2) : ∀ x ∈ multiplied a steps, P x :=
  List.forall_mem_cons.mpr ⟨ha, forall_joined h _⟩

theorem forall_divided {steps : List (MultiplicativeOperator × α)} (h : ∀ s ∈ steps, P s.2) :
    ∀ x ∈ divided steps, P x :=
  forall_joined h _

section Map

variable {β : Type} (f : α → β)

/-- Choosing by operator does not look at what is joined. -/
theorem joined_map (test : ι → Bool) (steps : List (ι × α)) :
    ((steps.map (Prod.map id f)).filter fun s => test s.1).map (·.2) =
      ((steps.filter fun s => test s.1).map (·.2)).map f := by
  simp only [List.filter_map, List.map_map]
  rfl

theorem added_map (a : α) (steps : List (AdditiveOperator × α)) :
    added (f a) (steps.map (Prod.map id f)) = (added a steps).map f :=
  congrArg (f a :: ·) (joined_map f (· == AdditiveOperator.plus) steps)

theorem subtracted_map (steps : List (AdditiveOperator × α)) :
    subtracted (steps.map (Prod.map id f)) = (subtracted steps).map f :=
  joined_map f (· == AdditiveOperator.minus) steps

theorem multiplied_map (a : α) (steps : List (MultiplicativeOperator × α)) :
    multiplied (f a) (steps.map (Prod.map id f)) = (multiplied a steps).map f :=
  congrArg (f a :: ·) (joined_map f (· == MultiplicativeOperator.times) steps)

theorem divided_map (steps : List (MultiplicativeOperator × α)) :
    divided (steps.map (Prod.map id f)) = (divided steps).map f :=
  joined_map f (· == MultiplicativeOperator.dividedBy) steps

end Map

/-- Choosing by operator keeps the order. -/
theorem joined_sublist (test : ι × α → Bool) (steps : List (ι × α)) :
    ((steps.filter test).map (·.2)).Sublist (steps.map (·.2)) :=
  List.filter_sublist.map _

theorem added_sublist (a : α) (steps : List (AdditiveOperator × α)) :
    (added a steps).Sublist (a :: steps.map (·.2)) :=
  (joined_sublist _ steps).cons_cons a

theorem subtracted_sublist (a : α) (steps : List (AdditiveOperator × α)) :
    (subtracted steps).Sublist (a :: steps.map (·.2)) :=
  (joined_sublist _ steps).cons a

theorem multiplied_sublist (a : α) (steps : List (MultiplicativeOperator × α)) :
    (multiplied a steps).Sublist (a :: steps.map (·.2)) :=
  (joined_sublist _ steps).cons_cons a

theorem divided_sublist (a : α) (steps : List (MultiplicativeOperator × α)) :
    (divided steps).Sublist (a :: steps.map (·.2)) :=
  (joined_sublist _ steps).cons a

/-- Nothing is lost or taken twice when terms are chosen by their operators. -/
theorem added_append_subtracted_perm (a : α) (steps : List (AdditiveOperator × α)) :
    (added a steps ++ subtracted steps).Perm (a :: steps.map (·.2)) := by
  have hminus : (fun s : AdditiveOperator × α => s.1 == .minus) = fun s => !(s.1 == .plus) := by
    funext ⟨operator, _⟩
    cases operator <;> rfl
  rw [added, subtracted, List.cons_append, ← List.map_append, hminus]
  exact ((List.filter_append_perm _ steps).map _).cons a

/-- Nothing is lost or taken twice when factors are chosen by their operators. -/
theorem multiplied_append_divided_perm (a : α) (steps : List (MultiplicativeOperator × α)) :
    (multiplied a steps ++ divided steps).Perm (a :: steps.map (·.2)) := by
  have hdividedBy : (fun s : MultiplicativeOperator × α => s.1 == .dividedBy) =
      fun s => !(s.1 == .times) := by
    funext ⟨operator, _⟩
    cases operator <;> rfl
  rw [multiplied, divided, List.cons_append, ← List.map_append, hdividedBy]
  exact ((List.filter_append_perm _ steps).map _).cons a

end Joined

/-! ## Texts -/

/-- A text has a parse tree if it does not nest too deeply and matches the grammar. -/
theorem parse_eq_ok {maxDepth : Nat} {source : String} {t : ExpressionTree} :
    parse maxDepth source = .ok t ↔
      Nesting.check maxDepth source = .ok () ∧ Grammar.tree source = .ok t := by
  unfold parse
  cases Nesting.check maxDepth source with
  | error e => simp [bind, Except.bind]
  | ok u =>
      cases Grammar.tree source with
      | error frontier => simp [bind, Except.bind]
      | ok t' => simp [bind, Except.bind]

/-- A text has no parse tree if it nests too deeply, or else if it does not match the grammar. -/
theorem parse_eq_error {maxDepth : Nat} {source : String} {e : Fault} :
    parse maxDepth source = .error e ↔
      Nesting.check maxDepth source = .error e ∨
        Nesting.check maxDepth source = .ok () ∧
          ∃ f, Grammar.tree source = .error f ∧ e = .ofFailure source f.offset f.expected := by
  unfold parse
  cases Nesting.check maxDepth source with
  | error e' => simp [bind, Except.bind]
  | ok u =>
      cases Grammar.tree source with
      | error frontier => simp [bind, Except.bind, eq_comm]
      | ok t => simp [bind, Except.bind]

end Interpretation

namespace Policy

variable {p : Policy} {source : String}

theorem check_eq : p.check source =
    Interpretation.parse p.maxDepth source >>= fun t =>
      (Interpretation.acceptance.walk t).outcome := by
  unfold check Interpretation.run
  cases Interpretation.parse p.maxDepth source with
  | error e => rfl
  | ok t => rfl

theorem evaluate_eq {σ : Type} [Series σ] {bindings : Bindings σ} :
    p.evaluate source bindings =
      Interpretation.parse p.maxDepth source >>= fun t =>
        ((Interpretation.evaluation bindings).walk t).outcome := by
  unfold evaluate Interpretation.run
  cases Interpretation.parse p.maxDepth source with
  | error e => rfl
  | ok t => rfl

/-- Validation fails where there is no parse tree. -/
theorem validate_of_parse {e : Fault} (h : Interpretation.parse p.maxDepth source = .error e) :
    p.validate source = .error e := by
  unfold validate Interpretation.run
  rw [h]
  rfl

end Policy

end MetricFormula
