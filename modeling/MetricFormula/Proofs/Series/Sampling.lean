/-
  Proofs/Series/Sampling: series whose products and quotients go index by index.

  A sampling reads a number off a series at each index, or nothing, such that products and
  quotients of series are those of the numbers: numbers are read as themselves at every
  index, and columns by their samples.  At an index at which every factor has a number, the
  product has the product of them (`foldlM_mul`).
-/
import MetricFormula.Series.Column
import MetricFormula.Proofs.Binary64.Product

set_option autoImplicit false

namespace MetricFormula

/-- Numbers at the indices of a series. -/
structure Sampling (σ : Type) [Series σ] where
  get? : σ → Nat → Option Binary64
  broadcast : ∀ x i, get? (Series.broadcast x) i = some x
  mul : ∀ {x y z : σ}, Series.mul x y = .ok z → ∀ i,
    get? z i = (get? x i).bind fun a => (get? y i).map (a * ·)
  div : ∀ {x y z : σ}, Series.div x y = .ok z → ∀ i,
    get? z i = (get? x i).bind fun a => (get? y i).map (a / ·)
  isZero : ∀ {x : σ}, Series.containsZero x = false → ∀ i a, get? x i = some a →
    a.isZero = false

/-- Two columns are combined sample by sample. -/
theorem Column.get?_zipWith {op : Binary64 → Binary64 → Binary64} {c d e : Column}
    (h : zipWith op c d = .ok e) (i : Nat) :
    e.get? i = (c.get? i).bind fun a => (d.get? i).map (op a) := by
  cases c with
  | scalar x =>
      cases d with
      | scalar y =>
          obtain rfl := Except.ok.inj h
          rfl
      | values ys =>
          obtain rfl := Except.ok.inj h
          simp [get?]
  | values xs =>
      cases d with
      | scalar y =>
          obtain rfl := Except.ok.inj h
          simp only [get?, List.getElem?_map, Option.map_some]
          cases xs[i]? <;> rfl
      | values ys =>
          rw [zipWith] at h
          split at h
          · obtain rfl := Except.ok.inj h
            simp only [get?, List.getElem?_zipWith]
            cases xs[i]? <;> cases ys[i]? <;> rfl
          · simp at h

/-- No sample of a column without a zero is zero. -/
theorem Column.isZero_of_get? {c : Column} (h : c.containsZero = false) {i : Nat} {a : Binary64}
    (ha : c.get? i = some a) : a.isZero = false := by
  cases c with
  | scalar x =>
      obtain rfl := Option.some.inj ha
      exact h
  | values xs =>
      rw [containsZero, List.any_eq_false] at h
      simpa using h a (List.mem_of_getElem? ha)

namespace Sampling

/-- A number is read as itself. -/
def number : Sampling Binary64 where
  get? x _ := some x
  broadcast _ _ := rfl
  mul h _ := congrArg some (Except.ok.inj h).symm
  div h _ := congrArg some (Except.ok.inj h).symm
  isZero h _ _ ha := Option.some.inj ha ▸ h

/-- A column is read sample by sample. -/
def column : Sampling Column where
  get? := Column.get?
  broadcast _ _ := rfl
  mul := Column.get?_zipWith
  div := Column.get?_zipWith
  isZero h _ _ := Column.isZero_of_get? h

variable {σ : Type} [Series σ] (S : Sampling σ)

/-- At an index at which all factors have a number, so has what they multiply to. -/
theorem foldlM_mul {cs : List σ} {x z : σ} (h : cs.foldlM Series.mul x = .ok z) (i : Nat) :
    (∃ c ∈ cs, S.get? c i = none) ∨
      ∃ ws : List Binary64, cs.map (S.get? · i) = ws.map some ∧
        S.get? z i = (S.get? x i).map fun a => ws.foldl (· * ·) a := by
  induction cs generalizing x with
  | nil =>
      obtain rfl := Except.ok.inj h
      exact Or.inr ⟨[], rfl, by simp⟩
  | cons c cs ih =>
      rw [List.foldlM_cons] at h
      cases hmul : Series.mul x c with
      | error cause => simp [hmul, bind, Except.bind] at h
      | ok y =>
          rw [hmul] at h
          cases hc : S.get? c i with
          | none => exact Or.inl ⟨c, List.mem_cons_self, hc⟩
          | some w =>
              rcases ih h with ⟨d, hd, hnone⟩ | ⟨ws, hws, hz⟩
              · exact Or.inl ⟨d, List.mem_cons_of_mem c hd, hnone⟩
              · refine Or.inr ⟨w :: ws, by simp [hc, hws], ?_⟩
                rw [hz, S.mul hmul i, hc]
                cases S.get? x i <;> rfl

theorem product {cs : List σ} {z : σ} (h : Series.product cs = .ok z) (i : Nat) :
    (∃ c ∈ cs, S.get? c i = none) ∨
      ∃ ws : List Binary64, cs.map (S.get? · i) = ws.map some ∧
        S.get? z i = some (Binary64.product ws) := by
  rcases S.foldlM_mul h i with hnone | ⟨ws, hws, hz⟩
  · exact Or.inl hnone
  · rw [S.broadcast] at hz
    exact Or.inr ⟨ws, hws, hz⟩

end Sampling

end MetricFormula
