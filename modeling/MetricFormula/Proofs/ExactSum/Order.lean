/-
  Proofs/ExactSum/Order: which orders of the same numbers have the same sum.

  The sum is decided by three things: what is not finite, the exact sum of the finite
  numbers, and where they first overflow (`exactSum_eq_result`).  The first two do not
  depend on the order, the third does.  `exactSum_perm_iff` says for two orders of the
  same numbers exactly when the sums agree.
-/
import MetricFormula.Proofs.ExactSum.Overflow
import MetricFormula.Binary64.Bits

set_option autoImplicit false

namespace MetricFormula

open Binary64

namespace ExactSum

/-! ## The sum by its overflow -/

/-- The sum of numbers by where their finite ones overflow, the sum of those that are
not finite, and the exact sum of those that are. -/
def Overflow.result (special : Option Binary64) (exact : Int) : Overflow → Binary64
  | .never => special.getD (ofUnits false exact)
  | .last t => special.getD .zero + .infinity t
  | .early => .nan

/-- An overflow that leaves an infinity of the given sign what it is. -/
def Overflow.Keeps (s : Bool) : Overflow → Prop
  | .never => True
  | .last t => t = s
  | .early => False

theorem exactSum_eq_result (xs : List Binary64) :
    exactSum xs = (overflow .empty xs).result (specialSum xs) (total xs) := by
  unfold exactSum
  cases h : overflow .empty xs with
  | last t => exact toBinary64_of_last expansion_nil h
  | early => exact toBinary64_of_early expansion_nil h
  | never =>
      obtain ⟨hexp, htotal, hspecial, hend⟩ := foldl_of_never expansion_nil h
      rw [show xs.foldl insert .empty = ofList xs from rfl] at hexp htotal hspecial hend
      have htotal' : total (ofList xs).partials = total xs := by
        rw [htotal]
        exact Int.zero_add _
      rw [toBinary64, hspecial]
      change (specialSum xs).getD _ = (specialSum xs).getD _
      cases hsum : specialSum xs with
      | some v => rfl
      | none =>
          have hround := roundPartials_ne_infinity_of_never (hspecial.trans hsum) hend
          rw [Option.getD_none, Option.getD_none, (roundPartials_eq_ofUnits hexp hround).1,
            htotal']

/-- Finite numbers that do not overflow have a finite sum. -/
theorem isFinite_of_never {xs : List Binary64} (hxs : ∀ x ∈ xs, x.isFinite = true)
    (h : overflow .empty xs = .never) : (ofUnits false (total xs)).isFinite = true := by
  obtain ⟨hexp, htotal, hspecial, hend⟩ := foldl_of_never expansion_nil h
  have hround := roundPartials_ne_infinity_of_never
    (hspecial.trans (foldl_absorb_of_isFinite hxs _)) hend
  obtain ⟨heq, hfin⟩ := roundPartials_eq_ofUnits hexp hround
  rw [heq, htotal] at hfin
  rwa [show total ExactSum.empty.partials = 0 from rfl, Int.zero_add] at hfin

theorem result_nan (o : Overflow) (exact : Int) : o.result (some .nan) exact = .nan := by
  cases o with
  | never => rfl
  | last t => exact nan_add _
  | early => rfl

/-- An infinity keeps its place or becomes NaN. -/
theorem result_infinity_cases (s : Bool) (exact : Int) (o : Overflow) :
    (o.Keeps s ∧ o.result (some (.infinity s)) exact = .infinity s) ∨
      (¬o.Keeps s ∧ o.result (some (.infinity s)) exact = .nan) := by
  cases o with
  | never => exact Or.inl ⟨trivial, rfl⟩
  | early => exact Or.inr ⟨fun h => h, rfl⟩
  | last t =>
      by_cases hts : t = s
      · subst hts
        refine Or.inl ⟨rfl, ?_⟩
        cases t <;> rfl
      · refine Or.inr ⟨hts, ?_⟩
        cases t <;> cases s <;> first | rfl | exact absurd rfl hts

theorem result_infinity_eq_iff (s : Bool) (exact : Int) (o o' : Overflow) :
    o.result (some (.infinity s)) exact = o'.result (some (.infinity s)) exact ↔
      (o.Keeps s ↔ o'.Keeps s) := by
  rcases result_infinity_cases s exact o with ⟨hk, hr⟩ | ⟨hk, hr⟩ <;>
    rcases result_infinity_cases s exact o' with ⟨hk', hr'⟩ | ⟨hk', hr'⟩ <;>
      rw [hr, hr'] <;> simp [hk, hk']

theorem isFinite_result_none {exact : Int} {o : Overflow}
    (ho : o = .never → (ofUnits false exact).isFinite = true) :
    (o.result none exact).isFinite = true ↔ o = .never := by
  cases o with
  | never => exact iff_of_true (ho rfl) rfl
  | last t => exact iff_of_false Bool.false_ne_true (by simp)
  | early => exact iff_of_false Bool.false_ne_true (by simp)

/-- Sums of finite numbers are told apart by where they overflow. -/
theorem result_none_eq_iff {exact : Int} {o o' : Overflow}
    (ho : o = .never → (ofUnits false exact).isFinite = true)
    (ho' : o' = .never → (ofUnits false exact).isFinite = true) :
    o.result none exact = o'.result none exact ↔ o = o' := by
  constructor
  · intro h
    have hnever : o = .never ↔ o' = .never := by
      rw [← isFinite_result_none ho, ← isFinite_result_none ho', h]
    cases o with
    | never => exact (hnever.mp rfl).symm
    | last t =>
        cases o' with
        | never => exact hnever.mpr rfl
        | last u => exact congrArg Overflow.last (Binary64.infinity.inj h)
        | early => exact absurd h Binary64.noConfusion
    | early =>
        cases o' with
        | never => exact hnever.mpr rfl
        | last u => exact absurd h Binary64.noConfusion
        | early => rfl
  · intro h
    rw [h]

/-- Where not all numbers are finite and none is NaN, there is an infinity. -/
theorem exists_infinity_mem {xs : List Binary64} (hnan : .nan ∉ xs)
    (hall : ¬∀ x ∈ xs, x.isFinite = true) : ∃ s : Bool, .infinity s ∈ xs := by
  by_contra hno
  refine hall fun x hx => ?_
  cases x with
  | nan => exact absurd hx hnan
  | infinity s => exact absurd ⟨s, hx⟩ hno
  | finite s m => rfl

theorem infinity_not_mem {xs : List Binary64} (hall : ∀ x ∈ xs, x.isFinite = true) (s : Bool) :
    .infinity s ∉ xs := by
  intro hs
  have := hall _ hs
  simp [isFinite] at this

end ExactSum

/-! ## Two orders of the same numbers -/

open ExactSum in
/-- Two orders of the same numbers have the same sum exactly if NaN or both infinities
are among them, or an infinity is and both orders keep it or neither does, or all are
finite and both orders overflow at the same place and to the same side, if they do. -/
theorem exactSum_perm_iff {xs ys : List Binary64} (h : xs.Perm ys) :
    exactSum xs = exactSum ys ↔
      .nan ∈ xs ∨ (.infinity true ∈ xs ∧ .infinity false ∈ xs) ∨
        (∃ s : Bool, .infinity s ∈ xs ∧
          ((overflow .empty xs).Keeps s ↔ (overflow .empty ys).Keeps s)) ∨
        ((∀ x ∈ xs, x.isFinite = true) ∧ overflow .empty xs = overflow .empty ys) := by
  have hspecial : specialSum ys = specialSum xs := foldl_absorb_perm h.symm none
  have htotal : total ys = total xs := ((h.map units).sum_eq).symm
  rw [exactSum_eq_result xs, exactSum_eq_result ys, hspecial, htotal]
  by_cases hnan : .nan ∈ xs
  · rw [specialSum_of_nan_mem hnan, result_nan, result_nan]
    simp [hnan]
  by_cases hall : ∀ x ∈ xs, x.isFinite = true
  · have hallYs : ∀ y ∈ ys, y.isFinite = true := fun y hy => hall y (h.mem_iff.mpr hy)
    rw [specialSum_of_isFinite hall, result_none_eq_iff (isFinite_of_never hall)
      fun hnever => htotal ▸ isFinite_of_never hallYs hnever]
    constructor
    · intro hsame
      exact Or.inr (Or.inr (Or.inr ⟨hall, hsame⟩))
    · rintro (hmem | ⟨ht, _⟩ | ⟨s, hs, _⟩ | ⟨_, hsame⟩)
      · exact absurd hmem hnan
      · exact absurd ht (infinity_not_mem hall true)
      · exact absurd hs (infinity_not_mem hall s)
      · exact hsame
  · obtain ⟨s, hs⟩ := exists_infinity_mem hnan hall
    rw [specialSum_of_infinity_mem hs hnan]
    by_cases hother : .infinity (!s) ∈ xs
    · rw [if_pos hother, result_nan, result_nan]
      have hboth : .infinity true ∈ xs ∧ .infinity false ∈ xs := by
        cases s
        · exact ⟨hother, hs⟩
        · exact ⟨hs, hother⟩
      simp [hboth]
    · rw [if_neg hother, result_infinity_eq_iff]
      have honly : ∀ u : Bool, .infinity u ∈ xs → u = s := by
        intro u hu
        by_contra hus
        refine hother ?_
        rwa [show (!s) = u by cases s <;> cases u <;> simp at hus ⊢]
      constructor
      · intro hkeeps
        exact Or.inr (Or.inr (Or.inl ⟨s, hs, hkeeps⟩))
      · rintro (hmem | ⟨ht, hf⟩ | ⟨u, hu, hkeeps⟩ | ⟨hfin, _⟩)
        · exact absurd hmem hnan
        · exact absurd ((honly true ht).trans (honly false hf).symm) (by decide)
        · rwa [← honly u hu]
        · exact absurd hfin hall

theorem perm_greatest : [ofBits 0x7fefffffffffffff, ofBits 0x7fefffffffffffff,
    ofBits 0xffefffffffffffff].Perm [ofBits 0x7fefffffffffffff, ofBits 0xffefffffffffffff,
    ofBits 0x7fefffffffffffff] := (List.Perm.swap _ _ _).cons _

/-- The greatest finite number twice and its opposite once: in one order the first two
overflow and the third makes the sum NaN, in the other nothing overflows. -/
theorem exactSum_perm_iff_greatest :
    [ofBits 0x7fefffffffffffff, ofBits 0x7fefffffffffffff, ofBits 0xffefffffffffffff].Perm
        [ofBits 0x7fefffffffffffff, ofBits 0xffefffffffffffff, ofBits 0x7fefffffffffffff] ∧
      ¬((∀ x ∈ [ofBits 0x7fefffffffffffff, ofBits 0x7fefffffffffffff,
          ofBits 0xffefffffffffffff], x.isFinite = true) ∧
        ExactSum.overflow .empty [ofBits 0x7fefffffffffffff, ofBits 0x7fefffffffffffff,
            ofBits 0xffefffffffffffff] =
          ExactSum.overflow .empty [ofBits 0x7fefffffffffffff, ofBits 0xffefffffffffffff,
            ofBits 0x7fefffffffffffff]) := by
  refine ⟨perm_greatest, ?_⟩
  intro hsame
  have heq := (exactSum_perm_iff perm_greatest).mpr (Or.inr (Or.inr (Or.inr hsame)))
  exact absurd heq (by decide +kernel)

/-- The order of numbers can decide their sum. -/
theorem exactSum_depends_on_order :
    ¬∀ xs ys : List Binary64, xs.Perm ys → exactSum xs = exactSum ys := by
  intro hall
  exact absurd (hall _ _ perm_greatest) (by decide +kernel)

end MetricFormula
