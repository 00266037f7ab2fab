/-
  Proofs/ZeroSigns: evaluation does not see the signs of zeros.

  A term can pass the sign of a zero on to the expression around it, but the sum there drops
  it.  So evaluation does the same as an evaluation in which every term and every factor is made
  plain (`plainEvaluation`, `walk_plain`), and that one cannot tell bindings apart that are
  plainly the same.  The value of an expression is a sum or a difference of sums and has no
  negative zero (`plain_of_walk`).

  For texts this says that bindings that differ in the signs of zeros only lead to the same
  value, or to the same fault, and that no value has a negative zero (`evaluate_zeroSigns`).
-/
import MetricFormula.Proofs.Series.Zero
import MetricFormula.Proofs.Interpretation.Correspondence

set_option autoImplicit false

namespace MetricFormula

open MetricFormula.Grammar

/-! ## Bindings -/

/-- Two bindings bind the same names, and each name to series that are related. -/
def Bindings.Related {σ : Type} (R : σ → σ → Prop) (bindings bindings' : Bindings σ) : Prop :=
  ∀ name, Option.Rel R (bindings name) (bindings' name)

/-- The bindings with every zero made positive. -/
def Bindings.plain {σ : Type} [Series σ] (Z : ZeroBlind σ) (bindings : Bindings σ) : Bindings σ :=
  fun name => (bindings name).map Z.plain

theorem Bindings.Related.plain_eq {σ : Type} [Series σ] {Z : ZeroBlind σ} {R : σ → σ → Prop}
    (hR : ∀ {x y}, R x y → Z.plain x = Z.plain y) {bindings bindings' : Bindings σ}
    (h : bindings.Related R bindings') : bindings.plain Z = bindings'.plain Z := by
  funext name
  have hname := h name
  unfold Bindings.plain
  generalize bindings name = x, bindings' name = y at hname
  cases hname with
  | some hxy => exact congrArg some (hR hxy)
  | none => rfl

/-! ## Handlers -/

namespace Evaluation

variable {σ : Type} [Series σ] (Z : ZeroBlind σ) (bindings : Bindings σ)

theorem lift_congr {α β : Type} {f : α → β} {x y : Except LengthMismatch α}
    (h : x.map f = y.map f) : (lift x).map f = (lift y).map f := by
  cases x with
  | error e =>
      cases y with
      | error e' =>
          obtain rfl := Except.error.inj h
          rfl
      | ok b => cases h
  | ok a =>
      cases y with
      | error e' => cases h
      | ok b => exact congrArg Except.ok (Except.ok.inj h)

theorem resolve_plain (x : Operand σ) :
    (resolve (bindings.plain Z) (x.map Z.plain)) = (resolve bindings x).map Z.plain := by
  rcases x with a | ⟨name, span⟩
  · rfl
  · simp only [Operand.map, resolve, Bindings.plain]
    cases bindings name <;> rfl

theorem resolveAll_plain (xs : List (Operand σ)) :
    resolveAll (bindings.plain Z) (xs.map (·.map Z.plain)) =
      (resolveAll bindings xs).map (List.map Z.plain) := by
  induction xs with
  | nil => rfl
  | cons x xs ih =>
      rw [List.map_cons, resolveAll, resolveAll, resolve_plain, ih]
      cases resolve bindings x with
      | error e => rfl
      | ok a => cases resolveAll bindings xs <;> rfl

/-- A product that is looked up does not see the signs of zeros. -/
theorem product_plain (xs : List (Operand σ)) :
    (resolveAll (bindings.plain Z) (xs.map (·.map Z.plain)) >>= fun as =>
        lift (Series.product as)).map Z.plain =
      (resolveAll bindings xs >>= fun as => lift (Series.product as)).map Z.plain := by
  rw [resolveAll_plain]
  cases resolveAll bindings xs with
  | error e => rfl
  | ok as => exact lift_congr (Z.product_congr (by simp [Z.plain_plain]))

theorem quotient_plain (numerator denominator : List (Operand σ)) (span : Span) :
    (quotient (bindings.plain Z) (numerator.map (·.map Z.plain))
        (denominator.map (·.map Z.plain)) span).map Z.plain =
      (quotient bindings numerator denominator span).map Z.plain := by
  unfold quotient
  rw [← bind_assoc, ← bind_assoc]
  refine ZeroBlind.map_bind_congr (product_plain Z bindings numerator) fun x x' hx => ?_
  rw [List.isEmpty_map]
  split
  · exact congrArg Except.ok hx
  · rw [← bind_assoc, ← bind_assoc]
    refine ZeroBlind.map_bind_congr (product_plain Z bindings denominator) fun y y' hy => ?_
    rw [Z.containsZero_congr hy]
    split
    · rfl
    · rename_i hzero
      have hdivisor : Series.containsZero y = false := by
        rw [Z.containsZero_congr hy]
        exact Bool.eq_false_of_not_eq_true hzero
      exact lift_congr (Z.div_congr hx hy hdivisor)

theorem difference_plain (positive negative : List σ) :
    difference (positive.map Z.plain) (negative.map Z.plain) = difference positive negative := by
  simp only [difference, Z.sum, List.isEmpty_map]

/-- A difference of sums has no negative zero. -/
theorem plain_of_difference {positive negative : List σ} {z : σ}
    (h : difference positive negative = .ok z) : Z.plain z = z := by
  obtain ⟨total, htotal, h⟩ := bind_eq_ok.mp h
  have hplain := Z.plain_sum (lift_eq_ok.mp htotal)
  split at h
  · obtain rfl := Except.ok.inj h
    exact hplain
  · obtain ⟨subtrahend, -, h⟩ := bind_eq_ok.mp h
    exact Z.plain_sub hplain (lift_eq_ok.mp h)

end Evaluation

/-! ## The walk -/

namespace Interpretation

open Handled Evaluation

variable {σ : Type} [Series σ] (Z : ZeroBlind σ) (bindings : Bindings σ)

/-- Evaluation in which what a term or a factor comes to is made plain. -/
def plainEvaluation : Interpretation Unit σ σ σ :=
  { evaluation bindings with
    term := fun numerator denominator span =>
      Handled.ofExcept ((quotient bindings numerator denominator span).map Z.plain)
    constant := fun literal span =>
      Handled.ofExcept ((literalValue literal span).map fun x => Z.plain (Series.broadcast x))
    group := fun value _ => pure (Z.plain value) }

theorem plainEvaluation_corresponds :
    Corresponds (.mirroring id) (evaluation bindings) (plainEvaluation Z (bindings.plain Z))
      id Z.plain Z.plain where
  expression positive negative span s := by
    simp only [evaluation, plainEvaluation, runFrom_ofExcept, difference_plain, Except.map_id, id]
  term numerator denominator span s := by
    simp only [evaluation, plainEvaluation, runFrom_ofExcept, quotient_plain, id]
  enterCall _ _ _ := rfl
  call _ _ _ _ := rfl
  constant literal span s := by
    simp only [evaluation, plainEvaluation, runFrom_ofExcept]
    cases literalValue literal span <;> rfl
  group _ _ _ := rfl

/-- Making zeros positive on the way makes no difference to an evaluation. -/
theorem walk_plain (t : ExpressionTree) :
    ((plainEvaluation Z (bindings.plain Z)).walk t).outcome =
      ((evaluation bindings).walk t).outcome := by
  have h := walk_corresponds (plainEvaluation_corresponds Z bindings) t ()
  simpa only [outcome, id, Except.map_id] using congrArg Prod.fst h

/-- What an expression comes to has no negative zero. -/
theorem plain_of_walk {t : ExpressionTree} {z : σ}
    (h : ((evaluation bindings).walk t).outcome = .ok z) : Z.plain z = z := by
  obtain ⟨span, first, steps⟩ := t
  rw [walk] at h
  obtain ⟨a, -, h⟩ := outcome_bind_eq_ok.mp h
  obtain ⟨as, -, h⟩ := outcome_bind_eq_ok.mp h
  exact plain_of_difference Z h

end Interpretation

/-! ## Texts -/

namespace Policy

variable {σ : Type} [Series σ] (Z : ZeroBlind σ) {p : Policy} {source : String}
  {bindings bindings' : Bindings σ}

theorem evaluate_congr_plain (h : bindings.plain Z = bindings'.plain Z) :
    p.evaluate source bindings = p.evaluate source bindings' := by
  rw [evaluate_eq, evaluate_eq]
  congr 1
  funext t
  rw [← Interpretation.walk_plain Z, ← Interpretation.walk_plain Z, h]

theorem plain_of_evaluate {z : σ} (h : p.evaluate source bindings = .ok z) : Z.plain z = z := by
  rw [evaluate_eq] at h
  obtain ⟨t, -, h⟩ := bind_eq_ok.mp h
  exact Interpretation.plain_of_walk Z bindings h

end Policy

open Binary64 (negativeZero)

/-- Evaluating over numbers or columns that differ in the signs of zeros only leads to the same
value or the same fault.  No value is the negative zero, nor is it at any index. -/
theorem evaluate_zeroSigns (p : Policy) (source : String) :
    (∀ bindings bindings' : Bindings Binary64,
      bindings.Related Binary64.SameButZeroSign bindings' →
        p.evaluate source bindings = p.evaluate source bindings') ∧
    (∀ bindings bindings' : Bindings Column,
      bindings.Related Column.SameButZeroSigns bindings' →
        p.evaluate source bindings = p.evaluate source bindings') ∧
    (∀ bindings : Bindings Binary64, p.evaluate source bindings ≠ .ok negativeZero) ∧
    ∀ (bindings : Bindings Column) (c : Column), p.evaluate source bindings = .ok c →
      ∀ i, c.get? i ≠ some negativeZero := by
  refine ⟨fun _ _ h => ?_, fun _ _ h => ?_, fun _ h => ?_, fun _ c h => ?_⟩
  · exact Policy.evaluate_congr_plain .number (h.plain_eq Binary64.sameButZeroSign_iff.mp)
  · exact Policy.evaluate_congr_plain .column (h.plain_eq Column.sameButZeroSigns_iff.mp)
  · exact Binary64.plain_eq_self_iff.mp (Policy.plain_of_evaluate .number h) rfl
  · exact Column.plain_eq_self_iff.mp (Policy.plain_of_evaluate .column h)

/-- A column with a zero for `x`, and a number for `y`. -/
def zeroBindings (x : Binary64) : Bindings Column
  | "x" => some (.values [x, .one])
  | "y" => some (.scalar .two)
  | _ => none

/-- A product with a negative zero in it, and a division by a zero. -/
theorem evaluate_zeroSigns_product :
    (zeroBindings negativeZero).Related Column.SameButZeroSigns (zeroBindings .zero) ∧
      Policy.standard.evaluate "x * y" (zeroBindings .zero) = .ok (.values [.zero, .two]) ∧
      Policy.standard.evaluate "x * y" (zeroBindings negativeZero) = .ok (.values [.zero, .two]) ∧
      (Column.values [.zero, .two]).get? 0 ≠ some negativeZero ∧
    Bindings.Related Binary64.SameButZeroSign (fun _ => some negativeZero) (fun _ => some .zero) ∧
      Policy.standard.evaluate "1 / y" (fun _ => some Binary64.zero) =
        .error (.divisionByZero ⟨0, 5⟩) ∧
      Policy.standard.evaluate "1 / y" (fun _ => some negativeZero) =
        .error (.divisionByZero ⟨0, 5⟩) ∧
      Policy.standard.evaluate "x * y" (fun _ => some negativeZero) ≠ .ok negativeZero := by
  have hcolumns : (zeroBindings negativeZero).Related Column.SameButZeroSigns
      (zeroBindings .zero) := by
    intro name
    unfold zeroBindings
    split
    · exact .some (.cons (Or.inr ⟨rfl, rfl⟩) (.cons (Or.inl rfl) .nil))
    · exact .some (Or.inl rfl)
    · exact .none
  have hnumbers : Bindings.Related Binary64.SameButZeroSign (fun _ => some negativeZero)
      (fun _ => some .zero) := fun _ => .some (Or.inr ⟨rfl, rfl⟩)
  have hvalue : Policy.standard.evaluate "x * y" (zeroBindings .zero) =
      .ok (.values [.zero, .two]) := by decide +kernel
  have hfault : Policy.standard.evaluate "1 / y" (fun _ => some Binary64.zero) =
      .error (.divisionByZero ⟨0, 5⟩) := by decide +kernel
  obtain ⟨-, hcolumn, hnumber, hsamples⟩ := evaluate_zeroSigns .standard "x * y"
  obtain ⟨hquotient, -⟩ := evaluate_zeroSigns .standard "1 / y"
  exact ⟨hcolumns, hvalue, (hcolumn _ _ hcolumns).trans hvalue, hsamples _ _ hvalue 0,
    hnumbers, hfault, (hquotient _ _ hnumbers).trans hfault, hnumber _⟩

end MetricFormula
