/-
  Proofs/Series/Shape: what length the result of an operation on columns has.

  Whatever numbers are combined, the length of the result is the common length of the columns
  that went in, and the operation fails exactly if they have none (`length?_zipWith`,
  `length?_product`, `length?_sum`).  A common length is the length of each column that has one;
  where there is none, two of the lengths differ and are reported (`commonLength_isCommon`).
-/
import MetricFormula.Series.Column

set_option autoImplicit false

namespace MetricFormula

namespace Column

variable {c d : Column} {cs : List Column}

/-! ## Lengths -/

/-- The lengths of the columns that have one. -/
def lengths (cs : List Column) : List Nat := cs.filterMap length?

@[simp] theorem lengths_nil : lengths [] = [] := rfl

theorem lengths_cons (c : Column) (cs : List Column) :
    lengths (c :: cs) = c.length?.toList ++ lengths cs := by
  cases c with
  | scalar x => rfl
  | values xs => rfl

/-- Either the one length that all members of a list are, if there is a member, or two members
that differ. -/
def IsCommon (ns : List Nat) : Except LengthMismatch (Option Nat) → Prop
  | .ok o => ∀ n, o = some n ↔ n ∈ ns
  | .error e => e.left ≠ e.right ∧ e.left ∈ ns ∧ e.right ∈ ns

theorem commonLengthFrom_isCommon (common : Option Nat) :
    IsCommon (common.toList ++ lengths cs) (commonLengthFrom common cs) := by
  induction cs generalizing common with
  | nil =>
      intro n
      simp
  | cons c cs ih =>
      rw [lengths_cons]
      cases hlength : c.length? with
      | none => simpa [commonLengthFrom, hlength] using ih common
      | some n =>
          cases common with
          | none => simpa [commonLengthFrom, hlength] using ih (some n)
          | some m =>
              by_cases hmn : m = n
              · subst hmn
                have hcommon := ih (some m)
                simp only [commonLengthFrom, hlength, if_pos]
                cases hrest : commonLengthFrom (some m) cs with
                | ok o =>
                    rw [hrest] at hcommon
                    intro k
                    simpa using hcommon k
                | error e =>
                    rw [hrest] at hcommon
                    simpa [IsCommon] using hcommon
              · simp only [commonLengthFrom, hlength, if_neg hmn]
                exact ⟨hmn, by simp, by simp⟩

/-- The common length of columns is the length of each that has one, and if there is no common
length, two of them differ. -/
theorem commonLength_isCommon (cs : List Column) : IsCommon (lengths cs) (commonLength cs) :=
  commonLengthFrom_isCommon none

/-! ## Operations -/

theorem commonLengthFrom_cons (common : Option Nat) (c : Column) (cs : List Column) :
    commonLengthFrom common (c :: cs) =
      commonLengthFrom common [c] >>= fun common' => commonLengthFrom common' cs := by
  cases hlength : c.length? with
  | none => simp [commonLengthFrom, hlength, bind, Except.bind]
  | some n =>
      cases common with
      | none => simp [commonLengthFrom, hlength, bind, Except.bind]
      | some m =>
          by_cases hmn : m = n
          · simp [commonLengthFrom, hlength, hmn, bind, Except.bind]
          · simp [commonLengthFrom, hlength, hmn, bind, Except.bind]

section Binary

variable (op : Binary64 → Binary64 → Binary64)

/-- Two columns have the common length of both. -/
theorem length?_zipWith (c d : Column) :
    (zipWith op c d).map length? = commonLengthFrom c.length? [d] := by
  cases c with
  | scalar x =>
      cases d with
      | scalar y => rfl
      | values ys => simp [zipWith, length?, commonLengthFrom, Except.map]
  | values xs =>
      cases d with
      | scalar y => simp [zipWith, length?, commonLengthFrom, Except.map]
      | values ys =>
          by_cases hlength : xs.length = ys.length
          · simp [zipWith, length?, commonLengthFrom, Except.map, hlength]
          · simp [zipWith, length?, commonLengthFrom, Except.map, hlength]

/-- Combining columns one after the other finds the lengths step by step, with the result so
far in the place of the columns before. -/
theorem length?_foldlM (c : Column) (cs : List Column) :
    (cs.foldlM (zipWith op) c).map length? = commonLengthFrom c.length? cs := by
  induction cs generalizing c with
  | nil => rfl
  | cons d cs ih =>
      have hstep := length?_zipWith op c d
      rw [List.foldlM_cons, commonLengthFrom_cons, ← hstep]
      cases zipWith op c d with
      | error e => rfl
      | ok e => exact ih e

end Binary

theorem length?_product (cs : List Column) :
    (Series.product cs).map length? = commonLength cs :=
  length?_foldlM (· * ·) (scalar Binary64.one) cs

theorem length?_sum (cs : List Column) : (sum cs).map length? = commonLength cs := by
  unfold sum
  cases commonLength cs with
  | error e => rfl
  | ok common =>
      cases common with
      | none => rfl
      | some n => simp [bind, Except.bind, pure, Except.pure, Except.map, length?]

end Column

end MetricFormula
