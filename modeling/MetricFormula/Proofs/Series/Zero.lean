/-
  Proofs/Series/Zero: series whose arithmetic does not see the signs of zeros.

  `ZeroBlind` says what is common to numbers and columns here: if every zero is made positive
  first, products and quotients come out the same but for the signs of zeros, and sums come
  out the same altogether, without a negative zero.
-/
import MetricFormula.Proofs.ExactSum.Zero
import MetricFormula.Proofs.Series.Sampling
import MetricFormula.Proofs.Interpretation.Outcome

set_option autoImplicit false

namespace MetricFormula

/-! ## Series that are the same but for the signs of zeros -/

/-- Two numbers are equal, or zeros of any sign. -/
def Binary64.SameButZeroSign (x y : Binary64) : Prop :=
  x = y ∨ x.isZero = true ∧ y.isZero = true

theorem Binary64.sameButZeroSign_iff {x y : Binary64} :
    x.SameButZeroSign y ↔ x.plain = y.plain := by
  constructor
  · rintro (rfl | ⟨hx, hy⟩)
    · rfl
    · rw [plain_of_isZero hx, plain_of_isZero hy]
  · intro h
    have hzero := isZero_eq_of_plain h
    cases hx : x.isZero with
    | true => exact Or.inr ⟨hx, hzero ▸ hx⟩
    | false =>
        rw [plain_of_not_isZero hx, plain_of_not_isZero (hzero ▸ hx)] at h
        exact Or.inl h

namespace Column

/-- Two columns have the same shape, and the same samples but for the signs of zeros. -/
def SameButZeroSigns : Column → Column → Prop
  | scalar x, scalar y => x.SameButZeroSign y
  | values xs, values ys => List.Forall₂ Binary64.SameButZeroSign xs ys
  | _, _ => False

/-- The column with every zero made positive. -/
def plain : Column → Column
  | scalar x => scalar x.plain
  | values xs => values (xs.map Binary64.plain)

theorem sameButZeroSigns_iff {c d : Column} : c.SameButZeroSigns d ↔ c.plain = d.plain := by
  have hsame : Binary64.SameButZeroSign = fun x y => x.plain = y.plain := by
    funext x y
    exact propext Binary64.sameButZeroSign_iff
  cases c with
  | scalar x => cases d <;> simp [SameButZeroSigns, plain, hsame]
  | values xs =>
      cases d with
      | scalar y => simp [SameButZeroSigns, plain]
      | values ys =>
          rw [SameButZeroSigns, plain, plain, values.injEq, hsame, ← List.forall₂_eq_eq_eq,
            List.forall₂_map_left_iff, List.forall₂_map_right_iff]

theorem plain_plain (c : Column) : c.plain.plain = c.plain := by
  cases c <;> simp [plain, Function.comp_def]

@[simp] theorem length?_plain (c : Column) : c.plain.length? = c.length? := by
  cases c <;> simp [plain, length?]

@[simp] theorem get?_plain (c : Column) (i : Nat) :
    c.plain.get? i = (c.get? i).map Binary64.plain := by
  cases c <;> simp [plain, get?]

/-- Only the columns without a negative zero are plain. -/
theorem plain_eq_self_iff {c : Column} :
    c.plain = c ↔ ∀ i, c.get? i ≠ some Binary64.negativeZero := by
  cases c with
  | scalar x => simp [plain, get?, Binary64.plain_eq_self_iff]
  | values xs =>
      have hmem : (∀ i : Nat, xs[i]? ≠ some Binary64.negativeZero) ↔
          Binary64.negativeZero ∉ xs := by
        simp [List.mem_iff_getElem?]
      have hmap : xs.map Binary64.plain = xs ↔ ∀ x ∈ xs, x.plain = x := by
        conv_lhs => rhs; rw [← List.map_id xs]
        exact List.map_inj_left
      simp only [plain, get?, values.injEq, hmem, hmap, Binary64.plain_eq_self_iff]
      exact ⟨fun h hneg => h _ hneg rfl, fun h x hx heq => h (heq ▸ hx)⟩

@[simp] theorem containsZero_plain (c : Column) : c.plain.containsZero = c.containsZero := by
  cases c with
  | scalar x => exact Binary64.isZero_plain x
  | values xs => simp [plain, containsZero, List.any_map, Function.comp_def]

/-- Combining columns whose zeros were made positive, sample by sample, differs at most in the
signs of zeros, if combining the samples does. -/
theorem plain_zipWith {op : Binary64 → Binary64 → Binary64} (c : Column) {d : Column}
    (hop : ∀ x y i, d.get? i = some y → (op x.plain y.plain).plain = (op x y).plain) :
    (zipWith op c.plain d.plain).map plain = (zipWith op c d).map plain := by
  cases c with
  | scalar x =>
      cases d with
      | scalar y => simp [plain, zipWith, Except.map, hop x y 0 rfl]
      | values ys =>
          have hops : ∀ y ∈ ys, (op x.plain y.plain).plain = (op x y).plain := by
            intro y hy
            obtain ⟨i, hi⟩ := List.mem_iff_getElem?.mp hy
            exact hop x y i hi
          simpa [plain, zipWith, Except.map] using hops
  | values xs =>
      cases d with
      | scalar y => simp [plain, zipWith, Except.map, fun x => hop x y 0 rfl]
      | values ys =>
          have hops : ∀ x, ∀ y ∈ ys, (op x.plain y.plain).plain = (op x y).plain := by
            intro x y hy
            obtain ⟨i, hi⟩ := List.mem_iff_getElem?.mp hy
            exact hop x y i hi
          simp only [plain, zipWith, List.length_map]
          split
          · simp only [Except.map, plain, List.map_zipWith, List.zipWith_map]
            rw [← List.map_uncurry_zip_eq_zipWith, ← List.map_uncurry_zip_eq_zipWith]
            congr 2
            exact List.map_congr_left fun p hp => hops p.1 p.2 (List.of_mem_zip hp).2
          · rfl

theorem samplesAt_plain (cs : List Column) (i : Nat) :
    samplesAt (cs.map plain) i = (samplesAt cs i).map Binary64.plain := by
  simp [samplesAt, List.filterMap_map, List.map_filterMap]

theorem commonLengthFrom_plain (common : Option Nat) (cs : List Column) :
    commonLengthFrom common (cs.map plain) = commonLengthFrom common cs := by
  induction cs generalizing common with
  | nil => rfl
  | cons c cs ih => simp only [List.map_cons, commonLengthFrom, length?_plain, ih]

theorem sum_plain (cs : List Column) : sum (cs.map plain) = sum cs := by
  simp only [sum, commonLength, commonLengthFrom_plain, samplesAt_plain, exactSum_plain]

/-- No sample of a sum is the negative zero. -/
theorem plain_of_sum {cs : List Column} {c : Column} (h : sum cs = .ok c) : c.plain = c := by
  have hsample : ∀ i, (exactSum (samplesAt cs i)).plain = exactSum (samplesAt cs i) := fun i =>
    Binary64.plain_eq_self_iff.mpr (exactSum_ne_negativeZero _)
  obtain ⟨common, -, hc⟩ := bind_eq_ok.mp h
  cases common with
  | none =>
      obtain rfl := Except.ok.inj hc
      exact congrArg scalar (hsample 0)
  | some n =>
      obtain rfl := Except.ok.inj hc
      simp [plain, Function.comp_def, hsample]

/-- Nor is any sample of a difference if none of what is subtracted from is. -/
theorem plain_of_sub {c d e : Column} (hc : c.plain = c) (h : zipWith (· - ·) c d = .ok e) :
    e.plain = e := by
  rw [plain_eq_self_iff] at hc ⊢
  intro i hi
  rw [get?_zipWith h i] at hi
  obtain ⟨a, ha, hi⟩ := Option.bind_eq_some_iff.mp hi
  obtain ⟨b, -, hab⟩ := Option.map_eq_some_iff.mp hi
  exact hc i (Binary64.sub_eq_negativeZero hab ▸ ha)

end Column

/-! ## What numbers and columns have in common -/

/-- Arithmetic that does not see the signs of zeros: `plain` makes every zero positive. -/
structure ZeroBlind (σ : Type) [Series σ] where
  plain : σ → σ
  plain_plain : ∀ x, plain (plain x) = plain x
  mul : ∀ x y, (Series.mul (plain x) (plain y)).map plain = (Series.mul x y).map plain
  /-- The divisor has to be without zeros. -/
  div : ∀ x y, Series.containsZero y = false →
    (Series.div (plain x) (plain y)).map plain = (Series.div x y).map plain
  containsZero : ∀ x, Series.containsZero (plain x) = Series.containsZero x
  sum : ∀ xs, Series.sum (xs.map plain) = Series.sum xs
  /-- A sum has no negative zero. -/
  plain_sum : ∀ {xs z}, Series.sum xs = .ok z → plain z = z
  /-- Subtracting brings no negative zero in. -/
  plain_sub : ∀ {x y z}, plain x = x → Series.sub x y = .ok z → plain z = z

namespace ZeroBlind

def number : ZeroBlind Binary64 where
  plain := Binary64.plain
  plain_plain := Binary64.plain_plain
  mul x y := congrArg Except.ok (Binary64.plain_mul x.plain_plain y.plain_plain)
  div x y h := congrArg Except.ok
    (Binary64.plain_div x.plain_plain y.plain_plain (y.isZero_plain.trans h))
  containsZero := Binary64.isZero_plain
  sum xs := congrArg Except.ok (exactSum_plain xs)
  plain_sum h := by
    obtain rfl := Except.ok.inj h
    exact Binary64.plain_eq_self_iff.mpr (exactSum_ne_negativeZero _)
  plain_sub hx h := by
    obtain rfl := Except.ok.inj h
    rw [Binary64.plain_eq_self_iff] at hx ⊢
    exact fun hz => hx (Binary64.sub_eq_negativeZero hz)

def column : ZeroBlind Column where
  plain := Column.plain
  plain_plain := Column.plain_plain
  mul c _ := Column.plain_zipWith c fun x y _ _ => Binary64.plain_mul x.plain_plain y.plain_plain
  div c _ h := Column.plain_zipWith c fun x y _ hy =>
    Binary64.plain_div x.plain_plain y.plain_plain
      (y.isZero_plain.trans (Column.isZero_of_get? h hy))
  containsZero := Column.containsZero_plain
  sum := Column.sum_plain
  plain_sum := Column.plain_of_sum
  plain_sub := Column.plain_of_sub

/-- Two steps in a row have results that look alike if the first ones have, and the second ones
have for results that look alike. -/
theorem map_bind_congr {ε α β : Type} {f : α → α} {g : β → β} {x y : Except ε α}
    {k l : α → Except ε β} (h : x.map f = y.map f)
    (hk : ∀ a b, f a = f b → (k a).map g = (l b).map g) :
    (x >>= k).map g = (y >>= l).map g := by
  cases x with
  | error e =>
      cases y with
      | error e' => exact congrArg Except.error (Except.error.inj h)
      | ok b => cases h
  | ok a =>
      cases y with
      | error e' => cases h
      | ok b => exact hk a b (Except.ok.inj h)

variable {σ : Type} [Series σ] (Z : ZeroBlind σ) {x x' y y' : σ}

theorem mul_congr (hx : Z.plain x = Z.plain x') (hy : Z.plain y = Z.plain y') :
    (Series.mul x y).map Z.plain = (Series.mul x' y').map Z.plain := by
  rw [← Z.mul x y, ← Z.mul x' y', hx, hy]

theorem containsZero_congr (h : Z.plain x = Z.plain x') :
    Series.containsZero x = Series.containsZero x' := by
  rw [← Z.containsZero x, ← Z.containsZero x', h]

theorem div_congr (hx : Z.plain x = Z.plain x') (hy : Z.plain y = Z.plain y')
    (h : Series.containsZero y = false) :
    (Series.div x y).map Z.plain = (Series.div x' y').map Z.plain := by
  rw [← Z.div x y h, ← Z.div x' y' (Z.containsZero_congr hy ▸ h), hx, hy]

theorem foldlM_mul_congr {xs ys : List σ} (hx : Z.plain x = Z.plain x')
    (h : xs.map Z.plain = ys.map Z.plain) :
    (xs.foldlM Series.mul x).map Z.plain = (ys.foldlM Series.mul x').map Z.plain := by
  induction xs generalizing ys x x' with
  | nil =>
      obtain rfl : ys = [] := by simpa using h.symm
      exact congrArg Except.ok hx
  | cons a xs ih =>
      cases ys with
      | nil => simp at h
      | cons b ys =>
          obtain ⟨hab, hxs⟩ := List.cons.inj h
          rw [List.foldlM_cons, List.foldlM_cons]
          exact map_bind_congr (Z.mul_congr hx hab) fun _ _ hz => ih hz hxs

/-- Products of factors that are plainly the same are plainly the same. -/
theorem product_congr {xs ys : List σ} (h : xs.map Z.plain = ys.map Z.plain) :
    (Series.product xs).map Z.plain = (Series.product ys).map Z.plain :=
  Z.foldlM_mul_congr rfl h

end ZeroBlind

end MetricFormula
