/-
  Proofs/Series/Mismatch: which mismatch is reported when columns are combined.

  A sum looks for a common length before anything is added.  A product and a running sum combine
  two columns at a time, and what they have so far changes from a scalar to a list of values on
  the way.  All three find the same (`combinations_agree`): the first length and the first one
  after it that differs, or the length of every column that has one.
-/
import MetricFormula.Proofs.Series.Shape

set_option autoImplicit false

namespace MetricFormula

namespace Column

variable {cs : List Column} {e : LengthMismatch} {n : Nat}

/-! ## The first mismatch -/

/-- `e` tells the first of the lengths, and the first one after it that differs. -/
def FirstMismatch (ns : List Nat) (e : LengthMismatch) : Prop :=
  ∃ same rest, ns = e.left :: (same ++ e.right :: rest) ∧ (∀ n ∈ same, n = e.left) ∧
    e.right ≠ e.left

theorem firstMismatch_cons {ns : List Nat} :
    FirstMismatch (n :: ns) e ↔ e.left = n ∧ ns.find? (fun m => m ≠ n) = some e.right := by
  rw [List.find?_eq_some_iff_append]
  constructor
  · rintro ⟨same, rest, hns, hsame, hne⟩
    obtain ⟨rfl, rfl⟩ := List.cons.inj hns
    exact ⟨rfl, by simpa using hne, same, rest, rfl, by simpa using hsame⟩
  · rintro ⟨rfl, hne, same, rest, rfl, hsame⟩
    exact ⟨same, rest, rfl, by simpa using hsame, by simpa using hne⟩

/-! ## The search for a common length -/

/-- After a first length the search goes on until it meets another one. -/
theorem commonLengthFrom_eq_find? (n : Nat) (cs : List Column) :
    commonLengthFrom (some n) cs =
      match (lengths cs).find? (fun m => m ≠ n) with
      | none => .ok (some n)
      | some m => .error ⟨n, m⟩ := by
  induction cs with
  | nil => rfl
  | cons c cs ih =>
      rw [lengths_cons]
      cases hlength : c.length? with
      | none => simpa [commonLengthFrom, hlength] using ih
      | some m =>
          by_cases hmn : n = m
          · subst hmn
            simpa [commonLengthFrom, hlength] using ih
          · simp [commonLengthFrom, hlength, hmn, Ne.symm hmn]

/-- Columns without lengths are passed over until the first length is found. -/
theorem commonLength_eq (cs : List Column) :
    commonLength cs =
      match lengths cs with
      | [] => .ok none
      | n :: ns =>
          match ns.find? (fun m => m ≠ n) with
          | none => .ok (some n)
          | some m => .error ⟨n, m⟩ := by
  unfold commonLength
  induction cs with
  | nil => rfl
  | cons c cs ih =>
      rw [lengths_cons]
      cases hlength : c.length? with
      | none => simpa [commonLengthFrom, hlength] using ih
      | some n => simpa [commonLengthFrom, hlength] using commonLengthFrom_eq_find? n cs

/-- There is no common length exactly if there is a mismatch, and the first one is told. -/
theorem commonLength_eq_error_iff : commonLength cs = .error e ↔ FirstMismatch (lengths cs) e := by
  rw [commonLength_eq]
  cases hlengths : lengths cs with
  | nil =>
      refine iff_of_false (by simp) ?_
      rintro ⟨same, rest, hns, -⟩
      simp at hns
  | cons n ns =>
      dsimp only
      rw [firstMismatch_cons]
      cases ns.find? (fun m => m ≠ n) with
      | none => simp
      | some m =>
          cases e
          simp [eq_comm]

/-- A common length is that of every column that has one; without any, there is none. -/
theorem commonLength_eq_ok {common : Option Nat} (h : commonLength cs = .ok common) :
    (∀ n ∈ lengths cs, common = some n) ∧ (lengths cs = [] → common = none) := by
  have hcommon := commonLength_isCommon cs
  rw [h] at hcommon
  constructor
  · intro n hn
    exact (hcommon n).mpr hn
  · intro hnil
    rw [Option.eq_none_iff_forall_ne_some]
    intro n hn
    simpa [hnil] using (hcommon n).mp hn

/-! ## Combinations -/

/-- A combination of columns fails as the search for their common length does, and else its
result has that length. -/
structure FindsLengths (cs : List Column) (r : Except LengthMismatch Column) : Prop where
  error_iff : ∀ e, r = .error e ↔ FirstMismatch (lengths cs) e
  values : ∀ c, r = .ok c → ∀ n ∈ lengths cs, ∃ xs, c = values xs ∧ xs.length = n
  scalar : ∀ c, r = .ok c → lengths cs = [] → ∃ x, c = scalar x

theorem FindsLengths.of_length? {r : Except LengthMismatch Column}
    (h : r.map length? = commonLength cs) : FindsLengths cs r := by
  have hok : ∀ c, r = .ok c → commonLength cs = .ok c.length? := by
    intro c hc
    rw [← h, hc]
    rfl
  refine ⟨?_, ?_, ?_⟩
  · intro e
    rw [← commonLength_eq_error_iff, ← h]
    cases r with
    | error e' => simp [Except.map]
    | ok c => simp [Except.map]
  · intro c hc n hn
    have hlength := (commonLength_eq_ok (hok c hc)).1 n hn
    cases c with
    | scalar x => simp [length?] at hlength
    | values xs => exact ⟨xs, rfl, Option.some.inj hlength⟩
  · intro c hc hnil
    have hlength := (commonLength_eq_ok (hok c hc)).2 hnil
    cases c with
    | scalar x => exact ⟨x, rfl⟩
    | values xs => simp [length?] at hlength

end Column

open Column in
/-- The sum of columns, their product, and adding them to zero one after the other fail for the
same columns and report the same: the first length and the first one after it that differs.
Where they do not fail, their results are lists of values of the common length, or scalars if
all columns are. -/
theorem combinations_agree (cs : List Column) :
    FindsLengths cs (Series.sum cs) ∧ FindsLengths cs (Series.product cs) ∧
      FindsLengths cs (cs.foldlM Series.add (Series.broadcast .zero)) := by
  refine ⟨.of_length? (length?_sum cs), .of_length? (length?_product cs), .of_length? ?_⟩
  exact length?_foldlM (· + ·) (.scalar .zero) cs

/-- Three different lengths after a scalar. -/
example :
    Column.sum [.scalar .one, .values [.one, .one], .values [], .values [.one]] =
      .error ⟨2, 0⟩ :=
  rfl

end MetricFormula
