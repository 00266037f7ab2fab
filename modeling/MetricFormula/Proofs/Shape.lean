/-
  Proofs/Shape: which lengths the columns of an evaluation have.

  `Shows ns shown x` says that what `x` comes to shows the lengths `ns` and no others, and that
  if lengths do not fit, they are two of `ns`.  It is put together along the steps of a walk, so
  that a value over columns shows the lengths of all columns that its variables are bound to
  (`walk_shows`).  A column shows one length at most: hence those columns all have the length of
  the value, and without any the value is a scalar (`evaluate_shape`).
-/
import MetricFormula.Proofs.Series.Shape
import MetricFormula.Proofs.Localisation
import MetricFormula.Proofs.Variables

set_option autoImplicit false

namespace MetricFormula

open MetricFormula.Grammar

/-- The lengths of the columns that are bound to some words. -/
def Bindings.lengths (bindings : Bindings Column) (ls : List Lexeme) : List Nat :=
  ls.filterMap fun l => (bindings l.text).bind Column.length?

theorem Bindings.lengths_append (bindings : Bindings Column) (ls ms : List Lexeme) :
    bindings.lengths (ls ++ ms) = bindings.lengths ls ++ bindings.lengths ms :=
  List.filterMap_append

/-! ## Lengths of results -/

namespace Evaluation

/-- A result shows the given lengths and no others, and a mismatch is one of two of them. -/
def Shows {α : Type} (ns : List Nat) (shown : α → List Nat) : Except Fault α → Prop
  | .ok a => ∀ n, n ∈ shown a ↔ n ∈ ns
  | .error e => ∀ cause, e = .series cause →
      cause.left ≠ cause.right ∧ cause.left ∈ ns ∧ cause.right ∈ ns

namespace Shows

variable {α β : Type} {ns ms held : List Nat} {shown : α → List Nat} {shown' : β → List Nat}
  {x : Except Fault α} {k : α → Except Fault β}

theorem pure (shown : α → List Nat) (a : α) : Shows (shown a) shown (.ok a) :=
  fun _ => Iff.rfl

theorem of_error {e : Fault} (h : ∀ cause, e ≠ .series cause) :
    Shows ns shown (.error e : Except Fault α) :=
  fun cause he => absurd he (h cause)

/-- Neither order nor repetition counts. -/
theorem congr (h : Shows ns shown x) (hns : ∀ n, n ∈ ns ↔ n ∈ ms) : Shows ms shown x := by
  cases x with
  | ok a => exact fun n => (h n).trans (hns n)
  | error e =>
      intro cause he
      obtain ⟨hne, hleft, hright⟩ := h cause he
      exact ⟨hne, (hns _).mp hleft, (hns _).mp hright⟩

/-- The second step takes over the lengths that the first one shows, and those that were held
back from it. -/
theorem bind (hx : Shows ns shown x) (hk : ∀ a, Shows (shown a ++ held) shown' (k a)) :
    Shows (ns ++ held) shown' (x >>= k) := by
  cases x with
  | ok a =>
      refine (hk a).congr fun n => ?_
      rw [List.mem_append, List.mem_append, hx n]
  | error e =>
      intro cause he
      obtain ⟨hne, hleft, hright⟩ := hx cause he
      exact ⟨hne, List.mem_append_left held hleft, List.mem_append_left held hright⟩

/-- A step, and then one that has nothing held back. -/
theorem andThen (hx : Shows ns shown x) (hk : ∀ a, Shows (shown a) shown' (k a)) :
    Shows ns shown' (x >>= k) := by
  have h : Shows (ns ++ []) shown' (x >>= k) := hx.bind fun a => by simpa using hk a
  rwa [List.append_nil] at h

/-- A step from which lengths are held back. -/
theorem hold (held : List Nat) (hx : Shows ns shown x)
    (hk : ∀ a, Shows (held ++ shown a) shown' (k a)) : Shows (held ++ ns) shown' (x >>= k) := by
  have hswap : ∀ ks ls : List Nat, ∀ n, n ∈ ks ++ ls ↔ n ∈ ls ++ ks := fun ks ls n => by
    rw [List.mem_append, or_comm, ← List.mem_append]
  exact (hx.bind fun a => (hk a).congr (hswap _ _)).congr (hswap _ _)

/-- The elements of a list, one after the other. -/
theorem cons {xs : Except Fault (List α)} (hx : Shows ns shown x)
    (hxs : Shows ms (List.flatMap shown) xs) :
    Shows (ns ++ ms) (List.flatMap shown)
      (x >>= fun a => xs >>= fun as => Pure.pure (a :: as)) :=
  hx.bind fun a => hxs.hold (shown a) fun as => pure (List.flatMap shown) (a :: as)

end Shows

/-- The length that a column shows, if it has one. -/
def columnShown (c : Column) : List Nat := c.length?.toList

theorem Shows.length?_eq_some {ns : List Nat} {c : Column} (h : Shows ns columnShown (.ok c))
    {n : Nat} : c.length? = some n ↔ n ∈ ns := by
  rw [← h n, columnShown, Option.mem_toList]

/-- Since a column shows one length at most, a list of lengths that it shows is one length at
most. -/
theorem Shows.all_eq {ns : List Nat} {c : Column} (h : Shows ns columnShown (.ok c)) :
    ∀ m ∈ ns, ∀ n ∈ ns, m = n := by
  intro m hm n hn
  rw [← h.length?_eq_some] at hm hn
  exact Option.some.inj (hm.symm.trans hn)

theorem Shows.length?_eq {ns : List Nat} {c : Column} (h : Shows ns columnShown (.ok c)) :
    c.length? = ns.head? := by
  cases ns with
  | nil => exact Option.eq_none_iff_forall_ne_some.mpr fun n hn => by simp [h.length?_eq_some] at hn
  | cons n ns => exact h.length?_eq_some.mpr List.mem_cons_self

theorem flatMap_columnShown (cs : List Column) : cs.flatMap columnShown = Column.lengths cs := by
  induction cs with
  | nil => rfl
  | cons c cs ih => rw [List.flatMap_cons, ih, Column.lengths_cons, columnShown]

/-! ## Handlers -/

variable {bindings : Bindings Column}

theorem lift_shows {ns : List Nat} {x : Except LengthMismatch Column}
    (h : Column.IsCommon ns (x.map Column.length?)) : Shows ns columnShown (lift x) := by
  cases x with
  | ok c =>
      intro n
      rw [← h n, columnShown, Option.mem_toList]
  | error e =>
      rintro cause ⟨⟩
      exact h

theorem sum_shows (cs : List Column) :
    Shows (cs.flatMap columnShown) columnShown (lift (Series.sum cs)) := by
  refine lift_shows ?_
  rw [flatMap_columnShown, show (Series.sum cs).map Column.length? = Column.commonLength cs from
    Column.length?_sum cs]
  exact Column.commonLength_isCommon cs

theorem product_shows (cs : List Column) :
    Shows (cs.flatMap columnShown) columnShown (lift (Series.product cs)) := by
  refine lift_shows ?_
  rw [flatMap_columnShown, Column.length?_product]
  exact Column.commonLength_isCommon cs

theorem zipWith_shows (op : Binary64 → Binary64 → Binary64) (c d : Column) :
    Shows (columnShown c ++ columnShown d) columnShown (lift (Column.zipWith op c d)) := by
  refine lift_shows ?_
  have hcommon : Column.IsCommon (columnShown c ++ Column.lengths [d])
      (Column.commonLengthFrom c.length? [d]) := Column.commonLengthFrom_isCommon c.length?
  rwa [Column.lengths_cons, Column.lengths_nil, List.append_nil, ← Column.length?_zipWith op]
    at hcommon

theorem difference_shows (positive negative : List Column) :
    Shows ((positive ++ negative).flatMap columnShown) columnShown
      (difference positive negative) := by
  rw [List.flatMap_append]
  refine (sum_shows positive).bind fun total => ?_
  cases negative with
  | nil =>
      rw [List.flatMap_nil, List.append_nil]
      exact .pure columnShown total
  | cons c cs =>
      refine (sum_shows (c :: cs)).hold (columnShown total) fun subtrahend => ?_
      exact zipWith_shows (· - ·) total subtrahend

/-- The length of the column that an operand stands for, if it has one. -/
def operandShown (bindings : Bindings Column) : Operand Column → List Nat
  | .value c => columnShown c
  | .variable name span => bindings.lengths [⟨name, span⟩]

theorem resolve_shows : ∀ x : Operand Column,
    Shows (operandShown bindings x) columnShown (resolve bindings x)
  | .value c => .pure columnShown c
  | .variable name span => by
      rw [resolve]
      cases hname : bindings name with
      | none => exact .of_error (by simp)
      | some c =>
          intro n
          simp [operandShown, Bindings.lengths, columnShown, hname]

theorem resolveAll_shows (xs : List (Operand Column)) :
    Shows (xs.flatMap (operandShown bindings)) (List.flatMap columnShown)
      (resolveAll bindings xs) := by
  induction xs with
  | nil => exact .pure (List.flatMap columnShown) []
  | cons x xs ih => exact (resolve_shows x).cons ih

theorem quotient_shows (numerator denominator : List (Operand Column)) (span : Span) :
    Shows ((numerator ++ denominator).flatMap (operandShown bindings)) columnShown
      (quotient bindings numerator denominator span) := by
  rw [List.flatMap_append]
  refine (resolveAll_shows numerator).bind fun xs => ?_
  refine (product_shows xs).bind fun dividend => ?_
  cases denominator with
  | nil =>
      rw [List.flatMap_nil, List.append_nil]
      exact .pure columnShown dividend
  | cons x xs =>
      refine (resolveAll_shows (x :: xs)).hold (columnShown dividend) fun ys => ?_
      refine (product_shows ys).hold (columnShown dividend) fun divisor => ?_
      by_cases hzero : Series.containsZero divisor = true
      · rw [if_pos hzero]
        exact .of_error (by simp)
      · rw [if_neg hzero]
        exact zipWith_shows (· / ·) dividend divisor

/-- A number has no length. -/
theorem constant_shows (literal : String) (span : Span) :
    Shows [] columnShown ((literalValue literal span).map Series.broadcast) := by
  cases hvalue : literalValue literal span with
  | ok x => exact .pure columnShown (Column.scalar x)
  | error e =>
      refine .of_error fun cause he => ?_
      subst he
      unfold literalValue at hvalue
      grind

end Evaluation

/-! ## The walk -/

namespace Interpretation

open Evaluation

/-- The lengths that a step shows, whatever its operator. -/
def stepShown {ω α : Type} (shown : α → List Nat) (s : ω × α) : List Nat := shown s.2

mutual

/-- The value of an expression shows the lengths of the columns that its references are bound
to. -/
theorem walk_shows (bindings : Bindings Column) : ∀ t : ExpressionTree,
    Shows (bindings.lengths t.references) columnShown ((evaluation bindings).walk t).outcome
  | .mk span first steps => by
      rw [ExpressionTree.references, Bindings.lengths_append, walk]
      simp only [Handled.outcome_bind]
      refine (walkTerm_shows bindings first).bind fun a => ?_
      refine (walkSteps_shows bindings steps).hold (columnShown a) fun as => ?_
      refine (difference_shows (added a as) (subtracted as)).congr fun n => ?_
      rw [((added_append_subtracted_perm a as).flatMap_right columnShown).mem_iff,
        List.flatMap_cons, List.flatMap_map]
      rfl

theorem walkSteps_shows (bindings : Bindings Column) : ∀ steps : List ExpressionStep,
    Shows (bindings.lengths (ExpressionTree.stepReferences steps))
      (List.flatMap (stepShown columnShown)) ((evaluation bindings).walkSteps steps).outcome
  | [] => .pure (List.flatMap (stepShown columnShown)) []
  | .mk operator place term :: steps => by
      have hstep : Shows (bindings.lengths term.references) (stepShown columnShown)
          ((evaluation bindings).walkStep (.mk operator place term)).outcome := by
        rw [walkStep, Handled.outcome_bind]
        exact (walkTerm_shows bindings term).andThen fun a =>
          .pure (stepShown columnShown) (operator, a)
      rw [ExpressionTree.stepReferences, Bindings.lengths_append, walkSteps]
      simp only [Handled.outcome_bind]
      exact hstep.cons (walkSteps_shows bindings steps)

theorem walkTerm_shows (bindings : Bindings Column) : ∀ t : TermTree,
    Shows (bindings.lengths t.references) columnShown ((evaluation bindings).walkTerm t).outcome
  | .mk span first steps => by
      rw [TermTree.references, Bindings.lengths_append, walkTerm]
      simp only [Handled.outcome_bind]
      refine (walkFactor_shows bindings first).bind fun a => ?_
      refine (walkTermSteps_shows bindings steps).hold (operandShown bindings a) fun as => ?_
      refine (quotient_shows (multiplied a as) (divided as) span).congr fun n => ?_
      rw [((multiplied_append_divided_perm a as).flatMap_right (operandShown bindings)).mem_iff,
        List.flatMap_cons, List.flatMap_map]
      rfl

theorem walkTermSteps_shows (bindings : Bindings Column) : ∀ steps : List TermStep,
    Shows (bindings.lengths (TermTree.stepReferences steps))
      (List.flatMap (stepShown (operandShown bindings)))
      ((evaluation bindings).walkTermSteps steps).outcome
  | [] => .pure (List.flatMap (stepShown (operandShown bindings))) []
  | .mk operator place factor :: steps => by
      have hstep : Shows (bindings.lengths factor.references) (stepShown (operandShown bindings))
          ((evaluation bindings).walkTermStep (.mk operator place factor)).outcome := by
        rw [walkTermStep, Handled.outcome_bind]
        exact (walkFactor_shows bindings factor).andThen fun a =>
          .pure (stepShown (operandShown bindings)) (operator, a)
      rw [TermTree.stepReferences, Bindings.lengths_append, walkTermSteps]
      simp only [Handled.outcome_bind]
      exact hstep.cons (walkTermSteps_shows bindings steps)

/-- A call is refused before its arguments are looked at. -/
theorem walkFactor_shows (bindings : Bindings Column) : ∀ x : FactorTree,
    Shows (bindings.lengths x.references) (operandShown bindings)
      ((evaluation bindings).walkFactor x).outcome
  | .call _ _ _ _ => .of_error (by simp)
  | .reference _ name => .pure (operandShown bindings) (.variable name.text name.span)
  | .constant literal => by
      rw [walkFactor]
      simp only [Handled.outcome_bind]
      exact (constant_shows literal.text literal.span).andThen fun c =>
        .pure (operandShown bindings) (.value c)
  | .group inner => by
      rw [walkFactor]
      simp only [Handled.outcome_bind]
      exact (walk_shows bindings inner).andThen fun c => .pure (operandShown bindings) (.value c)

end

end Interpretation

/-! ## Texts -/

/-- If evaluating a text over columns has a value, the columns that are bound to its variables
all have one length, the value has that length too, and if none of them has a length the value
is a scalar.  If lengths do not fit, they differ and are those of two columns that are bound to
variables of the text. -/
theorem evaluate_shape (p : Policy) (source : String) (bindings : Bindings Column) :
    (∀ c, p.evaluate source bindings = .ok c →
      ∃ ps, (∀ qs, CutAt (Cursor.ofString source) qs ↔ qs = ps) ∧
        (∀ m ∈ bindings.lengths (references ps), ∀ n ∈ bindings.lengths (references ps), m = n) ∧
        c.length? = (bindings.lengths (references ps)).head?) ∧
    ∀ left right, p.evaluate source bindings = .error (.series ⟨left, right⟩) →
      ∃ ps, (∀ qs, CutAt (Cursor.ofString source) qs ↔ qs = ps) ∧
        left ≠ right ∧ left ∈ bindings.lengths (references ps) ∧
        right ∈ bindings.lengths (references ps) := by
  rw [Policy.evaluate_eq]
  cases ht : Interpretation.parse p.maxDepth source with
  | error e =>
      obtain ⟨position, reason, rfl, -⟩ := Interpretation.malformed_of_parse ht
      exact ⟨by simp [bind, Except.bind], by simp [bind, Except.bind]⟩
  | ok t =>
      obtain ⟨ps, hcut, -, hreferences⟩ := Interpretation.exists_cut_of_parse ht
      have hshows := Interpretation.walk_shows bindings t
      rw [← hreferences] at hshows
      constructor
      · intro c (hc : ((Interpretation.evaluation bindings).walk t).outcome = .ok c)
        rw [hc] at hshows
        exact ⟨ps, hcut, hshows.all_eq, hshows.length?_eq⟩
      · intro left right
          (he : ((Interpretation.evaluation bindings).walk t).outcome = .error _)
        rw [he] at hshows
        exact ⟨ps, hcut, hshows ⟨left, right⟩ rfl⟩

/-- Columns of two lengths, one of them without samples, and a number. -/
def unevenBindings : Bindings Column
  | "x" => some (.values [.one, .two])
  | "y" => some (.values [])
  | "z" => some (.scalar .two)
  | _ => none

/-- A column without samples gives a value without samples, even where it divides; two lengths
are found not to fit where a difference meets a group. -/
theorem evaluate_shape_uneven :
    (Policy.standard.evaluate "z - 1 / (y - z)" unevenBindings = .ok (.values []) ∧
      ∃ ps, CutAt (Cursor.ofString "z - 1 / (y - z)") ps ∧
        (Column.values []).length? = (unevenBindings.lengths (references ps)).head?) ∧
    Policy.standard.evaluate "z * (x + 1) - y" unevenBindings = .error (.series ⟨2, 0⟩) ∧
      ∃ ps, CutAt (Cursor.ofString "z * (x + 1) - y") ps ∧
        2 ∈ unevenBindings.lengths (references ps) ∧
        0 ∈ unevenBindings.lengths (references ps) := by
  have hvalue : Policy.standard.evaluate "z - 1 / (y - z)" unevenBindings = .ok (.values []) := by
    decide +kernel
  have hfault : Policy.standard.evaluate "z * (x + 1) - y" unevenBindings =
      .error (.series ⟨2, 0⟩) := by decide +kernel
  obtain ⟨ps, hps, -, hlength⟩ := (evaluate_shape _ _ unevenBindings).1 _ hvalue
  obtain ⟨qs, hqs, -, hleft, hright⟩ := (evaluate_shape _ _ unevenBindings).2 _ _ hfault
  exact ⟨⟨hvalue, ps, (hps ps).mpr rfl, hlength⟩, hfault, qs, (hqs qs).mpr rfl, hleft, hright⟩

end MetricFormula
