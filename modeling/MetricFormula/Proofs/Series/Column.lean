/-
  Proofs/Series/Column: operations on columns, index by index.

  Columns that fit a length are scalars and lists of that many values.  An operation on
  columns that fit one length succeeds, its result fits that length again, and each
  sample of the result is the operation on the samples (`zipWith_of_fits`,
  `product_of_fits`, `sum_of_fits`).
-/
import MetricFormula.Series.Column

set_option autoImplicit false

namespace MetricFormula

namespace Column

variable {n : Nat} {c d : Column} {cs : List Column}

/-! ## Samples -/

/-- A scalar fits every length, and a list of values its own. -/
def Fits (n : Nat) : Column → Prop
  | scalar _ => True
  | values xs => xs.length = n

/-- The sample at an index, where there is one. -/
def sample (c : Column) (i : Nat) : Binary64 := (c.get? i).getD .nan

@[simp] theorem sample_scalar (x : Binary64) (i : Nat) : (scalar x).sample i = x := rfl

@[simp] theorem sample_values (xs : List Binary64) (i : Nat) :
    (values xs).sample i = xs[i]?.getD .nan := rfl

theorem get?_eq_sample (h : c.Fits n) {i : Nat} (hi : i < n) : c.get? i = some (c.sample i) := by
  cases c with
  | scalar x => rfl
  | values xs =>
      have hlt : i < xs.length := by rwa [show xs.length = n from h]
      rw [get?, sample_values, List.getElem?_eq_getElem hlt, Option.getD_some]

/-- A zero among the samples is a zero at some index. -/
theorem containsZero_iff (h : c.Fits n) (hn : 0 < n) :
    c.containsZero = true ↔ ∃ i < n, (c.sample i).isZero = true := by
  cases c with
  | scalar x => exact ⟨fun hx => ⟨0, hn, hx⟩, fun ⟨_, _, hx⟩ => hx⟩
  | values xs =>
      have hlen : xs.length = n := h
      rw [containsZero, List.any_eq_true]
      constructor
      · rintro ⟨x, hx, hzero⟩
        obtain ⟨i, hi, rfl⟩ := List.mem_iff_getElem.mp hx
        refine ⟨i, hlen ▸ hi, ?_⟩
        rwa [sample_values, List.getElem?_eq_getElem hi, Option.getD_some]
      · rintro ⟨i, hi, hzero⟩
        rw [← hlen] at hi
        rw [sample_values, List.getElem?_eq_getElem hi, Option.getD_some] at hzero
        exact ⟨xs[i], List.getElem_mem hi, hzero⟩

/-! ## Two columns -/

theorem zipWith_of_fits (op : Binary64 → Binary64 → Binary64) (hc : c.Fits n) (hd : d.Fits n) :
    ∃ e, zipWith op c d = .ok e ∧ e.Fits n ∧
      ∀ i < n, e.sample i = op (c.sample i) (d.sample i) := by
  cases c with
  | scalar x =>
      cases d with
      | scalar y => exact ⟨_, rfl, trivial, fun _ _ => rfl⟩
      | values ys =>
          have hlen : ys.length = n := hd
          refine ⟨_, rfl, (List.length_map _).trans hlen, ?_⟩
          intro i hi
          rw [← hlen] at hi
          simp [hi]
  | values xs =>
      have hlen : xs.length = n := hc
      cases d with
      | scalar y =>
          refine ⟨_, rfl, (List.length_map _).trans hlen, ?_⟩
          intro i hi
          rw [← hlen] at hi
          simp [hi]
      | values ys =>
          have hlen' : ys.length = n := hd
          refine ⟨values (List.zipWith op xs ys), ?_, ?_, ?_⟩
          · rw [zipWith, if_pos (hlen.trans hlen'.symm)]
          · change (List.zipWith op xs ys).length = n
            rw [List.length_zipWith, hlen, hlen', Nat.min_self]
          · intro i hi
            have hx : i < xs.length := by rwa [hlen]
            have hy : i < ys.length := by rwa [hlen']
            simp only [sample_values, List.getElem?_zipWith, List.getElem?_eq_getElem hx,
              List.getElem?_eq_getElem hy, Option.getD_some]

/-! ## Any number of columns -/

theorem foldlM_mul_of_fits (hcs : ∀ c ∈ cs, c.Fits n) (hd : d.Fits n) :
    ∃ e, cs.foldlM Series.mul d = .ok e ∧ e.Fits n ∧
      ∀ i < n, (cs.map (·.sample i)).foldlM Series.mul (d.sample i) = .ok (e.sample i) := by
  induction cs generalizing d with
  | nil => exact ⟨d, rfl, hd, fun _ _ => rfl⟩
  | cons c cs ih =>
      obtain ⟨hc, hcs⟩ := List.forall_mem_cons.mp hcs
      obtain ⟨d', hmul, hd', hsample⟩ := zipWith_of_fits (· * ·) hd hc
      obtain ⟨e, hfold, he, hindex⟩ := ih hcs hd'
      refine ⟨e, ?_, he, ?_⟩
      · rw [List.foldlM_cons, show Series.mul d c = .ok d' from hmul]
        exact hfold
      · intro i hi
        rw [← hindex i hi, hsample i hi]
        rfl

theorem product_of_fits (hcs : ∀ c ∈ cs, c.Fits n) :
    ∃ e, Series.product cs = .ok e ∧ e.Fits n ∧
      ∀ i < n, Series.product (cs.map (·.sample i)) = .ok (e.sample i) :=
  foldlM_mul_of_fits hcs (d := scalar Binary64.one) trivial

theorem commonLengthFrom_some (hcs : ∀ c ∈ cs, c.Fits n) :
    commonLengthFrom (some n) cs = .ok (some n) := by
  induction cs with
  | nil => rfl
  | cons c cs ih =>
      obtain ⟨hc, hrest⟩ := List.forall_mem_cons.mp hcs
      cases c with
      | scalar x => exact ih hrest
      | values xs =>
          obtain rfl : xs.length = n := hc
          change (if xs.length = xs.length then commonLengthFrom _ cs else _) = _
          rw [if_pos rfl, ih hrest]

/-- Columns that fit one length have that length in common, unless all are scalars. -/
theorem commonLength_of_fits (hcs : ∀ c ∈ cs, c.Fits n) :
    commonLength cs = .ok (some n) ∨
      commonLength cs = .ok none ∧ ∀ c ∈ cs, ∀ i j, c.sample i = c.sample j := by
  unfold commonLength
  induction cs with
  | nil => exact Or.inr ⟨rfl, by simp⟩
  | cons c cs ih =>
      obtain ⟨hc, hrest⟩ := List.forall_mem_cons.mp hcs
      cases c with
      | scalar x =>
          rcases ih hrest with h | ⟨h, hsame⟩
          · exact Or.inl h
          · exact Or.inr ⟨h, List.forall_mem_cons.mpr ⟨fun _ _ => rfl, hsame⟩⟩
      | values xs =>
          obtain rfl : xs.length = n := hc
          exact Or.inl (commonLengthFrom_some hrest)

theorem samplesAt_of_fits (hcs : ∀ c ∈ cs, c.Fits n) {i : Nat} (hi : i < n) :
    samplesAt cs i = cs.map (·.sample i) := by
  unfold samplesAt
  induction cs with
  | nil => rfl
  | cons c cs ih =>
      obtain ⟨hc, hrest⟩ := List.forall_mem_cons.mp hcs
      rw [List.filterMap_cons, get?_eq_sample hc hi, ih hrest]
      rfl

theorem sum_of_fits (hn : 0 < n) (hcs : ∀ c ∈ cs, c.Fits n) :
    ∃ e, sum cs = .ok e ∧ e.Fits n ∧ ∀ i < n, e.sample i = exactSum (cs.map (·.sample i)) := by
  unfold sum
  rcases commonLength_of_fits hcs with h | ⟨h, hsame⟩
  · rw [h]
    refine ⟨_, rfl, ?_, ?_⟩
    · change ((List.range n).map _).length = n
      rw [List.length_map, List.length_range]
    · intro i hi
      simp [hi, samplesAt_of_fits hcs hi]
  · rw [h]
    refine ⟨_, rfl, trivial, ?_⟩
    intro i hi
    rw [sample_scalar, samplesAt_of_fits hcs hn]
    exact congrArg exactSum (List.map_congr_left fun c hc => hsame c hc 0 i)

end Column

end MetricFormula
