/-
  Proofs/Columns: evaluating over columns is evaluating index by index.

  `Slices n S x y` relates a computation over columns to a computation over numbers for
  each index below `n`: where `x` succeeds, every `y i` succeeds with the slice of the
  result at `i`; where `x` fails, some `y i` fails with the same fault.  It is put together
  along the steps of a walk (`walk_slices`).

  If the columns that are bound all fit one length, an evaluation over them is sliced by
  the evaluations over the samples, and scalars alone behave as numbers do
  (`evaluate_columns`).
-/
import MetricFormula.Proofs.Series.Column
import MetricFormula.Proofs.Interpretation.Outcome
import Mathlib.Control.Monad.Basic

set_option autoImplicit false

namespace MetricFormula

open MetricFormula.Grammar

/-! ## Samples of bindings -/

/-- The numbers that the names stand for at an index. -/
def Bindings.sample (bindings : Bindings Column) (i : Nat) : Bindings Binary64 :=
  fun name => (bindings name).bind (·.get? i)

/-- Every column that is bound fits a length. -/
def Bindings.Fits (n : Nat) (bindings : Bindings Column) : Prop :=
  ∀ name c, bindings name = some c → c.Fits n

/-! ## Slices -/

/-- How values of one type are cut, at an index, into values of another: which values
can be cut, and what they are cut into. -/
structure Slicing (α β : Type) where
  Fits : α → Prop
  cut : α → Nat → β

namespace Slicing

variable {α β ω : Type}

/-- A column is cut into its samples. -/
def column (n : Nat) : Slicing Column Binary64 := ⟨Column.Fits n, Column.sample⟩

/-- A list is cut element by element. -/
def list (S : Slicing α β) : Slicing (List α) (List β) :=
  ⟨fun as => ∀ a ∈ as, S.Fits a, fun as i => as.map (S.cut · i)⟩

/-- The name of a variable is the same at every index. -/
def operand (S : Slicing α β) : Slicing (Operand α) (Operand β) where
  Fits
    | .value a => S.Fits a
    | .variable _ _ => True
  cut
    | .value a, i => .value (S.cut a i)
    | .variable name span, _ => .variable name span

/-- An operator is the same at every index. -/
def step (S : Slicing α β) : Slicing (ω × α) (ω × β) :=
  ⟨fun s => S.Fits s.2, fun s i => (s.1, S.cut s.2 i)⟩

end Slicing

/-- At every index below `n`, `y` succeeds with what the result of `x` is cut into; if
`x` fails, `y` fails alike at some index. -/
def Slices {α β : Type} (n : Nat) (S : Slicing α β) (x : Except Fault α)
    (y : Nat → Except Fault β) : Prop :=
  match x with
  | .ok a => S.Fits a ∧ ∀ i < n, y i = .ok (S.cut a i)
  | .error e => ∃ i < n, y i = .error e

namespace Slices

variable {α α' β β' : Type} {n : Nat} {S : Slicing α β} {T : Slicing α' β'}

theorem of_ok {a : α} {y : Nat → Except Fault β} (ha : S.Fits a)
    (hy : ∀ i < n, y i = .ok (S.cut a i)) : Slices n S (.ok a) y := ⟨ha, hy⟩

theorem of_error (hn : 0 < n) {e : Fault} {y : Nat → Except Fault β}
    (hy : ∀ i < n, y i = .error e) : Slices n S (.error e) y := ⟨0, hn, hy 0 hn⟩

theorem bind {x : Except Fault α} {y : Nat → Except Fault β} {k : α → Except Fault α'}
    {l : Nat → β → Except Fault β'} (hx : Slices n S x y)
    (hk : ∀ a, S.Fits a → Slices n T (k a) fun i => l i (S.cut a i)) :
    Slices n T (x >>= k) fun i => y i >>= l i := by
  cases x with
  | error e =>
      obtain ⟨i, hi, hy⟩ := hx
      exact ⟨i, hi, congrArg (· >>= l i) hy⟩
  | ok a =>
      obtain ⟨ha, hy⟩ := hx
      have hrest : ∀ i < n, (y i >>= l i) = l i (S.cut a i) := fun i hi =>
        congrArg (· >>= l i) (hy i hi)
      have hka := hk a ha
      change Slices n T (k a) _
      cases hresult : k a with
      | error e =>
          rw [hresult] at hka
          obtain ⟨i, hi, hl⟩ := hka
          exact ⟨i, hi, (hrest i hi).trans hl⟩
      | ok b =>
          rw [hresult] at hka
          exact ⟨hka.1, fun i hi => (hrest i hi).trans (hka.2 i hi)⟩

/-- The elements of a list, one after the other. -/
theorem cons {x : Except Fault α} {y : Nat → Except Fault β} {xs : Except Fault (List α)}
    {ys : Nat → Except Fault (List β)} (hx : Slices n S x y) (hxs : Slices n S.list xs ys) :
    Slices n S.list (x >>= fun a => xs >>= fun as => pure (a :: as))
      fun i => y i >>= fun b => ys i >>= fun bs => pure (b :: bs) :=
  hx.bind fun _ ha => hxs.bind fun _ has =>
    of_ok (List.forall_mem_cons.mpr ⟨ha, has⟩) fun _ _ => rfl

end Slices

/-! ## Reducing -/

namespace Evaluation

open Slicing

variable {n : Nat} {bindings : Bindings Column}

theorem resolve_slices (hn : 0 < n) (hbindings : bindings.Fits n) {x : Operand Column}
    (hx : (operand (column n)).Fits x) :
    Slices n (column n) (resolve bindings x)
      fun i => resolve (bindings.sample i) ((operand (column n)).cut x i) := by
  rcases x with c | ⟨name, span⟩
  · exact .of_ok hx fun _ _ => rfl
  · simp only [resolve, operand, Bindings.sample]
    cases hname : bindings name with
    | none => exact .of_error hn fun _ _ => rfl
    | some c =>
        have hc := hbindings name c hname
        refine .of_ok hc fun i hi => ?_
        rw [Option.bind_some, Column.get?_eq_sample hc hi]
        rfl

theorem resolveAll_slices (hn : 0 < n) (hbindings : bindings.Fits n) {xs : List (Operand Column)}
    (hxs : (operand (column n)).list.Fits xs) :
    Slices n (column n).list (resolveAll bindings xs)
      fun i => resolveAll (bindings.sample i) ((operand (column n)).list.cut xs i) := by
  induction xs with
  | nil => exact .of_ok (by simp [list]) fun _ _ => rfl
  | cons x xs ih =>
      obtain ⟨hx, hxs⟩ := List.forall_mem_cons.mp hxs
      exact (resolve_slices hn hbindings hx).cons (ih hxs)

theorem sum_slices (hn : 0 < n) {cs : List Column} (hcs : (column n).list.Fits cs) :
    Slices n (column n) (lift (Series.sum cs))
      fun i => lift (Series.sum ((column n).list.cut cs i)) := by
  obtain ⟨c, hsum, hc, hsample⟩ := Column.sum_of_fits hn hcs
  rw [show Series.sum cs = .ok c from hsum]
  exact .of_ok hc fun i hi => congrArg Except.ok (hsample i hi).symm

theorem product_slices {cs : List Column} (hcs : (column n).list.Fits cs) :
    Slices n (column n) (lift (Series.product cs))
      fun i => lift (Series.product ((column n).list.cut cs i)) := by
  obtain ⟨c, hproduct, hc, hsample⟩ := Column.product_of_fits hcs
  rw [hproduct]
  exact .of_ok hc fun i hi => congrArg lift (hsample i hi)

theorem difference_slices (hn : 0 < n) {positive negative : List Column}
    (hpositive : (column n).list.Fits positive) (hnegative : (column n).list.Fits negative) :
    Slices n (column n) (difference positive negative)
      fun i => difference ((column n).list.cut positive i) ((column n).list.cut negative i) := by
  refine (sum_slices hn hpositive).bind fun total htotal => ?_
  cases negative with
  | nil => exact .of_ok htotal fun _ _ => rfl
  | cons c cs =>
      refine (sum_slices hn hnegative).bind fun subtrahend hsubtrahend => ?_
      obtain ⟨e, hsub, he, hsample⟩ := Column.zipWith_of_fits (· - ·) htotal hsubtrahend
      rw [show Series.sub total subtrahend = .ok e from hsub]
      exact .of_ok he fun i hi => congrArg Except.ok (hsample i hi).symm

/-- A zero at some index makes the whole term fail, and the term at that index. -/
theorem division_slices (hn : 0 < n) {dividend divisor : Column} (hdividend : dividend.Fits n)
    (hdivisor : divisor.Fits n) (span : Span) :
    Slices n (column n)
      (if Series.containsZero divisor then .error (.divisionByZero span)
        else lift (Series.div dividend divisor))
      fun i =>
        if Series.containsZero (divisor.sample i) then .error (.divisionByZero span)
        else lift (Series.div (dividend.sample i) (divisor.sample i)) := by
  have hzero : Series.containsZero divisor = true ↔
      ∃ i < n, Series.containsZero (divisor.sample i) = true :=
    Column.containsZero_iff hdivisor hn
  by_cases h : Series.containsZero divisor = true
  · obtain ⟨i, hi, hi0⟩ := hzero.mp h
    rw [if_pos h]
    exact ⟨i, hi, if_pos hi0⟩
  · obtain ⟨e, hdiv, he, hsample⟩ := Column.zipWith_of_fits (· / ·) hdividend hdivisor
    rw [if_neg h, show Series.div dividend divisor = .ok e from hdiv]
    refine .of_ok he fun i hi => ?_
    rw [if_neg fun hi0 => h (hzero.mpr ⟨i, hi, hi0⟩)]
    exact congrArg Except.ok (hsample i hi).symm

theorem quotient_slices (hn : 0 < n) (hbindings : bindings.Fits n)
    {numerator denominator : List (Operand Column)}
    (hnumerator : (operand (column n)).list.Fits numerator)
    (hdenominator : (operand (column n)).list.Fits denominator) (span : Span) :
    Slices n (column n) (quotient bindings numerator denominator span)
      fun i => quotient (bindings.sample i) ((operand (column n)).list.cut numerator i)
        ((operand (column n)).list.cut denominator i) span := by
  refine (resolveAll_slices hn hbindings hnumerator).bind fun xs hxs => ?_
  refine (product_slices hxs).bind fun dividend hdividend => ?_
  cases denominator with
  | nil => exact .of_ok hdividend fun _ _ => rfl
  | cons x xs =>
      refine (resolveAll_slices hn hbindings hdenominator).bind fun ys hys => ?_
      refine (product_slices hys).bind fun divisor hdivisor => ?_
      exact division_slices hn hdividend hdivisor span

end Evaluation

/-! ## Walking -/

namespace Slicing

open Interpretation

variable {α β : Type} {S : Slicing α β}

/-! Cutting commutes with the choice by operator. -/

theorem added_cut (a : α) (steps : List (AdditiveOperator × α)) (i : Nat) :
    added (S.cut a i) (S.step.list.cut steps i) = S.list.cut (added a steps) i :=
  added_map (S.cut · i) a steps

theorem subtracted_cut (steps : List (AdditiveOperator × α)) (i : Nat) :
    subtracted (S.step.list.cut steps i) = S.list.cut (subtracted steps) i :=
  subtracted_map (S.cut · i) steps

theorem multiplied_cut (a : α) (steps : List (MultiplicativeOperator × α)) (i : Nat) :
    multiplied (S.cut a i) (S.step.list.cut steps i) = S.list.cut (multiplied a steps) i :=
  multiplied_map (S.cut · i) a steps

theorem divided_cut (steps : List (MultiplicativeOperator × α)) (i : Nat) :
    divided (S.step.list.cut steps i) = S.list.cut (divided steps) i :=
  divided_map (S.cut · i) steps

end Slicing

namespace Evaluation

open Interpretation Slicing

variable {n : Nat} {bindings : Bindings Column}

theorem constant_slices (hn : 0 < n) (literal : String) (span : Span) :
    Slices n (column n) ((literalValue literal span).map Series.broadcast)
      fun _ => (literalValue literal span).map Series.broadcast := by
  cases literalValue literal span with
  | error e => exact .of_error hn fun _ _ => rfl
  | ok x => exact .of_ok trivial fun _ _ => rfl

mutual

/-- The value over columns is made up of the values at the indices. -/
theorem walk_slices (hn : 0 < n) (hbindings : bindings.Fits n) : ∀ t : ExpressionTree,
    Slices n (column n) ((evaluation bindings).walk t).outcome
      fun i => ((evaluation (bindings.sample i)).walk t).outcome
  | .mk span first steps => by
      simp only [walk, Handled.outcome_bind]
      refine (walkTerm_slices hn hbindings first).bind fun a ha => ?_
      refine (walkSteps_slices hn hbindings steps).bind fun as has => ?_
      change Slices n _ (difference (added a as) (subtracted as)) fun i =>
        difference (added ((column n).cut a i) _) (subtracted _)
      simp only [added_cut, subtracted_cut]
      exact difference_slices hn (forall_added ha has) (forall_subtracted has)

theorem walkSteps_slices (hn : 0 < n) (hbindings : bindings.Fits n) : ∀ steps : List ExpressionStep,
    Slices n (column n).step.list ((evaluation bindings).walkSteps steps).outcome
      fun i => ((evaluation (bindings.sample i)).walkSteps steps).outcome
  | [] => .of_ok (by simp [list]) fun _ _ => rfl
  | .mk operator place term :: steps => by
      simp only [walkSteps, walkStep, Handled.outcome_bind]
      refine Slices.cons (S := (column n).step) ?_ (walkSteps_slices hn hbindings steps)
      exact (walkTerm_slices hn hbindings term).bind fun a ha => .of_ok ha fun _ _ => rfl

theorem walkTerm_slices (hn : 0 < n) (hbindings : bindings.Fits n) : ∀ t : TermTree,
    Slices n (column n) ((evaluation bindings).walkTerm t).outcome
      fun i => ((evaluation (bindings.sample i)).walkTerm t).outcome
  | .mk span first steps => by
      simp only [walkTerm, Handled.outcome_bind]
      refine (walkFactor_slices hn hbindings first).bind fun a ha => ?_
      refine (walkTermSteps_slices hn hbindings steps).bind fun as has => ?_
      change Slices n _ (quotient bindings (multiplied a as) (divided as) span) fun i =>
        quotient (bindings.sample i) (multiplied ((column n).operand.cut a i) _) (divided _) span
      simp only [multiplied_cut, divided_cut]
      exact quotient_slices hn hbindings (forall_multiplied ha has) (forall_divided has) span

theorem walkTermSteps_slices (hn : 0 < n) (hbindings : bindings.Fits n) : ∀ steps : List TermStep,
    Slices n (operand (column n)).step.list ((evaluation bindings).walkTermSteps steps).outcome
      fun i => ((evaluation (bindings.sample i)).walkTermSteps steps).outcome
  | [] => .of_ok (by simp [list]) fun _ _ => rfl
  | .mk operator place factor :: steps => by
      simp only [walkTermSteps, walkTermStep, Handled.outcome_bind]
      refine Slices.cons (S := (operand (column n)).step) ?_
        (walkTermSteps_slices hn hbindings steps)
      exact (walkFactor_slices hn hbindings factor).bind fun a ha => .of_ok ha fun _ _ => rfl

theorem walkFactor_slices (hn : 0 < n) (hbindings : bindings.Fits n) : ∀ x : FactorTree,
    Slices n (operand (column n)) ((evaluation bindings).walkFactor x).outcome
      fun i => ((evaluation (bindings.sample i)).walkFactor x).outcome
  | .reference span name => .of_ok trivial fun _ _ => rfl
  | .constant literal => by
      simp only [walkFactor, Handled.outcome_bind]
      exact (constant_slices hn literal.text literal.span).bind fun a ha =>
        .of_ok ha fun _ _ => rfl
  | .group inner => by
      simp only [walkFactor, Handled.outcome_bind]
      exact (walk_slices hn hbindings inner).bind fun a ha => .of_ok ha fun _ _ => rfl
  | .call span name first others => .of_error hn fun _ _ => rfl

end

end Evaluation

/-! ## Texts -/

/-- An evaluation over columns that fit one length is sliced by the evaluations over
their samples. -/
theorem evaluate_slices (p : Policy) (source : String) {n : Nat} (hn : 0 < n)
    {bindings : Bindings Column} (hbindings : bindings.Fits n) :
    Slices n (.column n) (p.evaluate source bindings)
      fun i => p.evaluate source (bindings.sample i) := by
  simp only [Policy.evaluate_eq]
  cases Interpretation.parse p.maxDepth source with
  | error e => exact .of_error hn fun _ _ => rfl
  | ok t => exact Evaluation.walk_slices hn hbindings t

/-- The only columns that fit two lengths are scalars. -/
theorem Column.eq_scalar_of_fits {c : Column} {m n : Nat} (hm : c.Fits m) (hn : c.Fits n)
    (hne : m ≠ n) : c = .scalar (c.sample 0) := by
  cases c with
  | scalar x => rfl
  | values xs => exact absurd (hm.symm.trans hn) hne

/-- Evaluating over scalars is evaluating over numbers. -/
theorem evaluate_scalars (p : Policy) (source : String) (bindings : Bindings Binary64) :
    p.evaluate source (fun name => (bindings name).map Column.scalar) =
      (p.evaluate source bindings).map Column.scalar := by
  have hfits : ∀ n, Bindings.Fits n fun name => (bindings name).map Column.scalar := by
    intro n name c hc
    obtain ⟨x, -, rfl⟩ := Option.map_eq_some_iff.mp hc
    trivial
  have hsample : Bindings.sample (fun name => (bindings name).map Column.scalar) 0 = bindings := by
    funext name
    simp only [Bindings.sample]
    cases bindings name <;> rfl
  have hone := evaluate_slices p source Nat.one_pos (hfits 1)
  have htwo := evaluate_slices p source Nat.two_pos (hfits 2)
  cases hresult : p.evaluate source fun name => (bindings name).map Column.scalar with
  | error e =>
      rw [hresult] at hone
      obtain ⟨i, hi, hy⟩ := hone
      obtain rfl : i = 0 := by omega
      change p.evaluate source (Bindings.sample _ 0) = _ at hy
      rw [hsample] at hy
      rw [hy]
      rfl
  | ok c =>
      rw [hresult] at hone htwo
      have hy : p.evaluate source (Bindings.sample _ 0) = _ := hone.2 0 Nat.one_pos
      rw [hsample] at hy
      rw [hy]
      exact congrArg Except.ok (c.eq_scalar_of_fits hone.1 htwo.1 (by decide))

/-- Columns whose lists of values all have one length that is not zero are evaluated
index by index: the value has the value of the samples at each index, and a fault is
that of the samples at some index.  Scalars are evaluated as numbers are. -/
theorem evaluate_columns (p : Policy) (source : String) :
    (∀ (bindings : Bindings Column) (n : Nat), 0 < n →
      (∀ name xs, bindings name = some (.values xs) → xs.length = n) →
      (∀ c, p.evaluate source bindings = .ok c → ∀ i < n,
        ∃ x, c.get? i = some x ∧ p.evaluate source (bindings.sample i) = .ok x) ∧
      ∀ e, p.evaluate source bindings = .error e →
        ∃ i < n, p.evaluate source (bindings.sample i) = .error e) ∧
    ∀ bindings : Bindings Binary64,
      p.evaluate source (fun name => (bindings name).map Column.scalar) =
        (p.evaluate source bindings).map Column.scalar := by
  refine ⟨?_, evaluate_scalars p source⟩
  intro bindings n hn hlength
  have hfits : bindings.Fits n := by
    intro name c hc
    cases c with
    | scalar x => trivial
    | values xs => exact hlength name xs hc
  have hslices := evaluate_slices p source hn hfits
  constructor
  · intro c hc i hi
    rw [hc] at hslices
    exact ⟨c.sample i, Column.get?_eq_sample hslices.1 hi, hslices.2 i hi⟩
  · intro e he
    rw [he] at hslices
    exact hslices

/-- Two samples for `x`, one number for `y`, and nothing for any other name. -/
def pairBindings : Bindings Column
  | "x" => some (.values [.one, .two])
  | "y" => some (.scalar .two)
  | _ => none

theorem length_pairBindings (name : String) (xs : List Binary64)
    (h : pairBindings name = some (.values xs)) : xs.length = 2 := by
  unfold pairBindings at h
  split at h
  · obtain rfl : [.one, .two] = xs := by simpa using h
    rfl
  · simp at h
  · simp at h

/-- A column is divided by a number, and a number by a column that is zero at one index. -/
theorem evaluate_columns_pair :
    (Policy.standard.evaluate "x / (y - 1)" pairBindings = .ok (.values [.one, .two]) ∧
      ∃ x, (Column.values [.one, .two]).get? 1 = some x ∧
        Policy.standard.evaluate "x / (y - 1)" (pairBindings.sample 1) = .ok x) ∧
    Policy.standard.evaluate "y / (x - 2) + z" pairBindings = .error (.divisionByZero ⟨0, 11⟩) ∧
      ∃ i < 2, Policy.standard.evaluate "y / (x - 2) + z" (pairBindings.sample i) =
        .error (.divisionByZero ⟨0, 11⟩) := by
  have hvalue : Policy.standard.evaluate "x / (y - 1)" pairBindings =
      .ok (.values [.one, .two]) := by decide +kernel
  have hfault : Policy.standard.evaluate "y / (x - 2) + z" pairBindings =
      .error (.divisionByZero ⟨0, 11⟩) := by decide +kernel
  have hvalues := (evaluate_columns .standard "x / (y - 1)").1 pairBindings 2 (by decide)
    length_pairBindings
  have hfaults := (evaluate_columns .standard "y / (x - 2) + z").1 pairBindings 2 (by decide)
    length_pairBindings
  exact ⟨⟨hvalue, hvalues.1 _ hvalue 1 (by decide)⟩, hfault, hfaults.2 _ hfault⟩

end MetricFormula
