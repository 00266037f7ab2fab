/-
  Proofs/Interpretation/Passing: where the values go that calls return.

  A stretch of calls that begins at the place `n` of a trace returns the values numbered
  `returned n calls`.  `Passes n calls left` says that each of them is given to one call of
  the stretch, a later one, or is `left` for the calls after it, and that nothing else is
  given or left.  Stretches are put together by `append` and `reduce`, so that no value is
  lost or given twice in the whole.
-/
import MetricFormula.Proofs.Interpretation.Trace

set_option autoImplicit false

namespace MetricFormula

/-- The value of an operand, if it has one. -/
def Operand.value? {φ : Type} : Operand φ → Option φ
  | .value x => some x
  | .variable _ _ => none

namespace NumberedCall

/-- The lists of values that a call is given. -/
def lists : NumberedCall → List (List (Operand Nat))
  | expression positive negative _ => [positive.map .value, negative.map .value]
  | term numerator denominator _ => [numerator, denominator]
  | enterCall _ _ => []
  | call _ arguments _ => [arguments.map .value]
  | reference _ _ => []
  | constant _ _ => []
  | group inner _ => [[.value inner]]

/-- The numbers of the values that a call is given. -/
def given (c : NumberedCall) : List Nat := c.lists.flatten.filterMap Operand.value?

/-- Whether a call returns a value. -/
def returns : NumberedCall → Bool
  | enterCall _ _ => false
  | _ => true

end NumberedCall

/-- The numbers of the values that calls return, the first call standing at `n`. -/
def returned : Nat → List NumberedCall → List Nat
  | _, [] => []
  | n, c :: calls => if c.returns then n :: returned (n + 1) calls else returned (n + 1) calls

section Returned

variable {n i : Nat} {c : NumberedCall} {calls : List NumberedCall}

theorem returned_append (n : Nat) (calls more : List NumberedCall) :
    returned n (calls ++ more) = returned n calls ++ returned (n + calls.length) more := by
  induction calls generalizing n with
  | nil => rfl
  | cons c calls ih =>
      have hlength : n + 1 + calls.length = n + (c :: calls).length := by
        rw [List.length_cons]
        omega
      rw [List.cons_append, returned, returned, ih, hlength]
      split <;> rfl

theorem bounds_of_mem_returned (h : i ∈ returned n calls) : n ≤ i ∧ i < n + calls.length := by
  induction calls generalizing n with
  | nil => simp [returned] at h
  | cons c calls ih =>
      have hmem : i = n ∨ i ∈ returned (n + 1) calls := by
        rw [returned] at h
        split at h
        · exact List.mem_cons.mp h
        · exact .inr h
      rw [List.length_cons]
      rcases hmem with rfl | hmem
      · omega
      · have := ih hmem
        omega

/-- Every number that is returned is that of a call that returns a value. -/
theorem exists_of_mem_returned (h : n + i ∈ returned n calls) :
    ∃ c, calls[i]? = some c ∧ c.returns = true := by
  induction calls generalizing n i with
  | nil => simp [returned] at h
  | cons c calls ih =>
      have hlater : n + i ∈ returned (n + 1) calls → ∃ c', (c :: calls)[i]? = some c' ∧
          c'.returns = true := by
        intro hmem
        obtain ⟨j, rfl⟩ : ∃ j, i = j + 1 := ⟨i - 1, by have := bounds_of_mem_returned hmem; omega⟩
        rw [show n + (j + 1) = n + 1 + j by omega] at hmem
        exact ih hmem
      rw [returned] at h
      split at h
      · rename_i hreturns
        rcases List.mem_cons.mp h with hhead | hmem
        · obtain rfl : i = 0 := by omega
          exact ⟨c, rfl, hreturns⟩
        · exact hlater hmem
      · exact hlater h

/-- A call returns one value at most. -/
theorem count_returned (hc : calls[i]? = some c) (hreturns : c.returns = true) :
    (returned n calls).count (n + i) = 1 := by
  induction calls generalizing n i with
  | nil => simp at hc
  | cons c' calls ih =>
      cases i with
      | zero =>
          obtain rfl : c' = c := by simpa using hc
          have hnone : n ∉ returned (n + 1) calls := fun hmem => by
            have := (bounds_of_mem_returned hmem).1
            omega
          rw [returned, if_pos hreturns, Nat.add_zero, List.count_cons_self,
            List.count_eq_zero.mpr hnone]
      | succ i =>
          have hrest := ih (n := n + 1) (by simpa using hc)
          rw [Nat.add_right_comm, Nat.add_assoc] at hrest
          rw [returned]
          split
          · rwa [List.count_cons_of_ne (by omega)]
          · exact hrest

end Returned

/-- Each value that the calls return is given to a later one of them, or left, once. -/
structure Passes (n : Nat) (calls : List NumberedCall) (left : List Nat) : Prop where
  once : (calls.flatMap NumberedCall.given ++ left).Perm (returned n calls)
  later : ∀ i c, calls[i]? = some c → ∀ j ∈ c.given, j < n + i

namespace Passes

variable {n : Nat} {calls more : List NumberedCall} {left left' : List Nat} {c : NumberedCall}

theorem nil (n : Nat) : Passes n [] [] where
  once := .nil
  later := by simp

/-- A call that is given nothing and returns nothing. -/
theorem silent (n : Nat) (hgiven : c.given = []) (hreturns : c.returns = false) :
    Passes n [c] [] where
  once := by simp [hgiven, returned, hreturns]
  later := by
    intro i c' hc' j hj
    obtain ⟨-, rfl⟩ : i = 0 ∧ c = c' := by simpa [List.getElem?_singleton] using hc'
    simp [hgiven] at hj

theorem append (h : Passes n calls left) (h' : Passes (n + calls.length) more left') :
    Passes n (calls ++ more) (left ++ left') where
  once := by
    rw [List.flatMap_append, returned_append, List.append_assoc]
    refine List.Perm.trans ?_ (h.once.append h'.once)
    rw [List.append_assoc]
    exact (List.perm_append_comm_assoc _ left left').append_left _
  later := by
    intro i c hc j hj
    by_cases hi : i < calls.length
    · rw [List.getElem?_append_left hi] at hc
      exact h.later i c hc j hj
    · rw [List.getElem?_append_right (by omega)] at hc
      have := h'.later (i - calls.length) c hc j hj
      omega

/-- A call that is given what the calls before it left. -/
theorem reduce (h : Passes n calls left) (hgiven : c.given.Perm left)
    (hreturns : c.returns = true) : Passes n (calls ++ [c]) [n + calls.length] where
  once := by
    have hleft : (calls.flatMap NumberedCall.given ++ c.given).Perm (returned n calls) :=
      (hgiven.append_left _).trans h.once
    rw [List.flatMap_append, List.flatMap_singleton, returned_append]
    simpa [returned, hreturns] using hleft.append_right [n + calls.length]
  later := by
    intro i c' hc' j hj
    by_cases hi : i < calls.length
    · rw [List.getElem?_append_left hi] at hc'
      exact h.later i c' hc' j hj
    · rw [List.getElem?_append_right (by omega)] at hc'
      obtain ⟨hlast, rfl⟩ : i - calls.length = 0 ∧ c = c' := by
        simpa [List.getElem?_singleton] using hc'
      have hmem : j ∈ returned n calls :=
        h.once.mem_iff.mp (List.mem_append_right _ (hgiven.mem_iff.mp hj))
      have := (bounds_of_mem_returned hmem).2
      omega

/-- Of a whole trace, each value is given to one call, or it is what is left. -/
theorem count_eq_one (h : Passes 0 calls left) {i : Nat} (hc : calls[i]? = some c)
    (hreturns : c.returns = true) :
    (calls.flatMap NumberedCall.given ++ left).count i = 1 := by
  have hcount := count_returned (n := 0) hc hreturns
  rwa [Nat.zero_add, ← h.once.count_eq] at hcount

/-- Only values that a call returns are given or left. -/
theorem exists_returning (h : Passes 0 calls left) {j : Nat}
    (hj : j ∈ calls.flatMap NumberedCall.given ++ left) :
    ∃ c, calls[j]? = some c ∧ c.returns = true := by
  have hmem : 0 + j ∈ returned 0 calls := by
    rw [Nat.zero_add]
    exact h.once.mem_iff.mp hj
  exact exists_of_mem_returned hmem

/-- Values are given only after they have been returned. -/
theorem exists_earlier (h : Passes 0 calls left) {i j : Nat} (hc : calls[i]? = some c)
    (hj : j ∈ c.given) : j < i ∧ ∃ c', calls[j]? = some c' ∧ c'.returns = true := by
  have hlt := h.later i c hc j hj
  have hgiven : j ∈ calls.flatMap NumberedCall.given :=
    List.mem_flatMap.mpr ⟨c, List.mem_of_getElem? hc, hj⟩
  exact ⟨by omega, h.exists_returning (List.mem_append_left _ hgiven)⟩

end Passes

end MetricFormula
