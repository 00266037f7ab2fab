/-
  Proofs/ExactSum/Collapse: reading the sum off the partials rounds it once.

  The partials are added from the greatest down.  As long as the sums are exact, what
  has been added and what is left is still the exact sum.  The first sum that is not
  exact decides: what is left is smaller than the last digit that was added, so it can
  only break a tie, and it does so by its sign, which is that of its greatest partial
  (`settle_units`).
-/
import MetricFormula.Proofs.ExactSum.Partials
import MetricFormula.Proofs.ExactSum.Perturbation

set_option autoImplicit false

namespace MetricFormula.ExactSum

open Binary64
open Magnitude (scale)

/-! ## Partials, the greatest first -/

/-- Finite numbers, none of them zero, each one above those that follow. -/
structure Descending (ps : List Binary64) : Prop where
  finite : ∀ p ∈ ps, p.isFinite = true
  nonzero : ∀ p ∈ ps, p.units ≠ 0
  below : ps.Pairwise fun p q => Below q.units p.units

theorem Expansion.descending {ps : List Binary64} (h : Expansion ps) : Descending ps.reverse := by
  refine ⟨?_, ?_, ?_⟩
  · intro p hp
    exact h.finite p (List.mem_reverse.mp hp)
  · intro p hp
    exact h.nonzero p (List.mem_reverse.mp hp)
  · exact List.pairwise_reverse.mpr h.below

theorem descending_cons {p : Binary64} {ps : List Binary64} :
    Descending (p :: ps) ↔
      p.isFinite = true ∧ p.units ≠ 0 ∧ (∀ q ∈ ps, Below q.units p.units) ∧ Descending ps := by
  constructor
  · intro h
    obtain ⟨hbelow, hrest⟩ := List.pairwise_cons.mp h.below
    exact ⟨h.finite p List.mem_cons_self, h.nonzero p List.mem_cons_self, hbelow,
      fun q hq => h.finite q (List.mem_cons_of_mem p hq),
      fun q hq => h.nonzero q (List.mem_cons_of_mem p hq), hrest⟩
  · rintro ⟨hfin, hne, hbelow, hps⟩
    refine ⟨?_, ?_, List.pairwise_cons.mpr ⟨hbelow, hps.below⟩⟩
    · simpa [hfin] using hps.finite
    · simpa [hne] using hps.nonzero

theorem total_reverse (ps : List Binary64) : total ps.reverse = total ps := by
  simp [total, List.sum_reverse]

/-- Partials add up to less than any power of two above the greatest of them. -/
theorem natAbs_total_lt {y : Binary64} {ys : List Binary64} {k : Nat} (h : Descending (y :: ys))
    (hk : y.units.natAbs < 2 ^ k) : (total (y :: ys)).natAbs < 2 ^ k := by
  induction ys generalizing y k with
  | nil => simpa using hk
  | cons w ws ih =>
      obtain ⟨_, hy0, hbelow, hrest⟩ := descending_cons.mp h
      obtain ⟨m, hm, hmdvd⟩ := hbelow w List.mem_cons_self
      have htail := ih hrest hm
      have hstep := two_pow_le_natAbs hmdvd hy0
      have hmk : m ≤ k := by
        have := (Nat.pow_lt_pow_iff_right (by omega : 1 < 2)).mp (lt_of_le_of_lt hstep hk)
        omega
      -- Both ends of the gap above `y` are multiples of `2 ^ m`.
      have hyNat : 2 ^ m ∣ y.units.natAbs := by
        have := Int.natAbs_dvd_natAbs.mpr hmdvd
        rwa [Int.natAbs_pow] at this
      have hgap := Nat.le_of_dvd (by omega) (Nat.dvd_sub (Nat.pow_dvd_pow 2 hmk) hyNat)
      rw [total_cons]
      omega

/-- The sum of partials has the sign of the greatest of them. -/
theorem total_sign {y : Binary64} {ys : List Binary64} (h : Descending (y :: ys)) :
    (y.units < 0 ∧ total (y :: ys) < 0) ∨ (0 < y.units ∧ 0 < total (y :: ys)) := by
  obtain ⟨_, hy0, hbelow, hrest⟩ := descending_cons.mp h
  have htail : (total ys).natAbs < y.units.natAbs := by
    cases ys with
    | nil => simpa using Int.natAbs_pos.mpr hy0
    | cons w ws =>
        obtain ⟨m, hm, hmdvd⟩ := hbelow w List.mem_cons_self
        have := natAbs_total_lt hrest hm
        have := two_pow_le_natAbs hmdvd hy0
        omega
  rw [total_cons]
  omega

/-! ## Settling the last bit -/

theorem sameSide_iff {x y : Binary64} (hx : x.isFinite = true) (hy : y.isFinite = true) :
    sameSide x y = true ↔ (x.units < 0 ∧ y.units < 0) ∨ (0 < x.units ∧ 0 < y.units) := by
  have hzero : Binary64.zero.isFinite = true := rfl
  unfold sameSide
  rw [Bool.or_eq_true, Bool.and_eq_true, Bool.and_eq_true, numericLt_iff hx hzero,
    numericLt_iff hy hzero, numericLt_iff hzero hx, numericLt_iff hzero hy, units_zero]

theorem not_numericEq_infinity {x : Binary64} {t : Bool} (hx : x.isFinite = true) :
    x.numericEq (.infinity t) = false := by
  cases x with
  | nan => simp [isFinite] at hx
  | infinity s => simp [isFinite] at hx
  | finite s m => rfl

/-- A sum that overflowed is not moved. -/
theorem settle_infinity (t : Bool) (next : Option Binary64) :
    settle (.infinity t) (.infinity (!t)) next = .infinity t := by
  have htwice : Binary64.infinity (!t) * two = .infinity (!t) := by
    have hpos : ¬1 * Nat.pow 2 (unitPlaces + 1) = 0 := by
      rw [Nat.one_mul]
      exact (Nat.two_pow_pos _).ne'
    change (if 1 * Nat.pow 2 (unitPlaces + 1) = 0 then nan else .infinity ((!t) != false)) = _
    rw [if_neg hpos, Bool.bne_false]
  cases next with
  | none => rfl
  | some w =>
      unfold settle
      dsimp only
      rw [htwice]
      cases t <;> split <;> rfl

section Settle

variable {high low : Binary64} {z : Int}

/-- Half-way between two neighbours the sum moves to the other neighbour. -/
theorem settle_of_tie (hhigh : high.isFinite = true) (hunits : high.units = roundUnits z)
    (hlow : low.isFinite = true) (hexact : high.units + low.units = z)
    (htie : 2 * low.units.natAbs = 2 ^ scale z.natAbs)
    (hgrid : OnGrid (high.units + 2 * low.units)) {w : Binary64} (hside : sameSide low w = true) :
    (settle high low (some w)).isFinite = true ∧
      (settle high low (some w)).units = high.units + 2 * low.units := by
  have hlowEq : z - roundUnits z = low.units := by omega
  have hbound : (high.units + 2 * low.units).natAbs < limit := by
    have h := natAbs_neighbour_lt (z := z) (by rwa [hlowEq])
      (by
        rw [← hunits]
        exact natAbs_units_lt high)
    rwa [hlowEq, ← hunits] at h
  have hk : 0 < scale z.natAbs := by
    by_contra h0
    rw [show scale z.natAbs = 0 by omega] at htie
    omega
  have htwiceLt : (2 * low.units).natAbs < limit := by
    have hz := two_pow_scale_le hk
    have hpow : 2 ^ scale z.natAbs * 2 ≤ 2 ^ (52 + scale z.natAbs) := by
      rw [← Nat.pow_succ]
      exact Nat.pow_le_pow_right (by omega) (by omega)
    have := natAbs_units_lt high
    omega
  obtain ⟨htwice, htwiceUnits⟩ := mul_two_exact hlow htwiceLt
  obtain ⟨hmoved, hmovedUnits⟩ := add_exact hhigh htwice (by rwa [htwiceUnits])
    (by rwa [htwiceUnits])
  have hback : (high + low * two).units - high.units = 2 * low.units := by
    rw [hmovedUnits, htwiceUnits]
    ring
  obtain ⟨hdiff, hdiffUnits⟩ := sub_exact hmoved hhigh
    (by
      rw [hback]
      exact (onGrid_units low).two_mul)
    (by rwa [hback])
  have hsettle : settle high low (some w) = high + low * two := by
    unfold settle
    dsimp only
    rw [if_pos hside, if_pos]
    rw [numericEq_iff htwice hdiff, hdiffUnits, hback, htwiceUnits]
  rw [hsettle]
  exact ⟨hmoved, by rw [hmovedUnits, htwiceUnits]⟩

/-- Where the loss is less than a half, a sum on the scale of the exact one stays in its
binade when the loss is added twice. -/
theorem two_pow_le_natAbs_moved {h l : Int} {k : Nat} (hdvd : (2 : Int) ^ k ∣ h)
    (hle : 2 ^ (52 + k) ≤ h.natAbs) (hsum : 2 ^ (52 + k) ≤ (h + l).natAbs)
    (hlt : 2 * l.natAbs < 2 ^ k) : 2 ^ (52 + k) ≤ (h + 2 * l).natAbs := by
  rcases Nat.eq_or_lt_of_le hle with heq | hgt
  · omega
  · have hNat : 2 ^ k ∣ h.natAbs := by
      have := Int.natAbs_dvd_natAbs.mpr hdvd
      rwa [Int.natAbs_pow] at this
    have hstep : 2 ^ k ∣ 2 ^ (52 + k) := Nat.pow_dvd_pow 2 (by omega)
    have := Nat.le_of_dvd (by omega) (Nat.dvd_sub hNat hstep)
    omega

/-- Away from the half the sum does not move. -/
theorem settle_of_not_tie (hhigh : high.isFinite = true) (hunits : high.units = roundUnits z)
    (hlow : low.isFinite = true) (hexact : high.units + low.units = z) (hlow0 : low.units ≠ 0)
    (hlt : 2 * low.units.natAbs < 2 ^ scale z.natAbs) (w : Binary64) :
    settle high low (some w) = high := by
  have hk : 0 < scale z.natAbs := by
    by_contra h0
    rw [show scale z.natAbs = 0 by omega] at hlt
    omega
  have hz := two_pow_scale_le hk
  have hround := two_pow_scale_dvd_roundUnits z
  have hgridEnd : OnGrid (2 ^ (52 + scale z.natAbs)) :=
    ⟨1, 52 + scale z.natAbs, by decide, by ring⟩
  have habsEnd : ((2 : Int) ^ (52 + scale z.natAbs)).natAbs = 2 ^ (52 + scale z.natAbs) :=
    Int.natAbs_pow 2 _
  have hhighLe := le_natAbs_roundUnits_of_le (z := z) hgridEnd (by omega)
  rw [habsEnd, ← hunits] at hhighLe
  rw [← hunits] at hround
  generalize scale z.natAbs = k at *
  have hmovedLe := two_pow_le_natAbs_moved hround hhighLe (by rwa [hexact]) hlt
  have hfar : ∀ moved : Binary64, moved.units = roundUnits (high.units + 2 * low.units) →
      (2 : Int) ^ k ∣ moved.units - high.units := by
    intro moved hmoved
    refine Int.dvd_sub ?_ hround
    rw [hmoved]
    refine (onGrid_roundUnits _).dvd_of_le ?_
    rw [← habsEnd]
    exact le_natAbs_roundUnits_of_le hgridEnd (by omega)
  have htwiceLt : (2 * low.units).natAbs < limit := by
    have := natAbs_units_lt high
    have : 2 ^ k ≤ 2 ^ (52 + k) := Nat.pow_le_pow_right (by omega) (by omega)
    omega
  obtain ⟨htwice, htwiceUnits⟩ := mul_two_exact hlow htwiceLt
  have hne : (low * two).numericEq (high + low * two - high) = false := by
    rcases add_cases hhigh htwice with ⟨hmoved, hmovedUnits⟩ | ⟨hinf, _⟩
    · rw [htwiceUnits] at hmovedUnits
      rcases add_cases hmoved (y := high.neg) (by rw [isFinite_neg, hhigh]) with
        ⟨hdiff, hdiffUnits⟩ | ⟨hinf, _⟩
      · rw [← Bool.not_eq_true, sub_eq_add_neg, numericEq_iff htwice hdiff, hdiffUnits,
          htwiceUnits, units_neg]
        intro heq
        have hdvd := dvd_roundUnits (hfar _ hmovedUnits)
        rw [Int.sub_eq_add_neg, ← heq] at hdvd
        have := two_pow_le_natAbs hdvd (by omega)
        omega
      · rw [sub_eq_add_neg, hinf]
        exact not_numericEq_infinity htwice
    · rw [hinf, sub_eq_add_neg, infinity_add (by rw [isFinite_neg, hhigh])]
      exact not_numericEq_infinity htwice
  unfold settle
  simp [hne]

/-- A sum that was not exact, settled by the partials that are left, is the rounding
of the exact sum. -/
theorem settle_units (hhigh : high.isFinite = true) (hunits : high.units = roundUnits z)
    (hlow : low.isFinite = true) (hexact : high.units + low.units = z) (hlow0 : low.units ≠ 0)
    {ys : List Binary64} (hys : Descending ys) (hdvd : ∀ y ∈ ys, ∃ j : Nat,
      y.units.natAbs < 2 ^ j ∧ (2 : Int) ^ j ∣ z) :
    (settle high low ys.head?).isFinite = true ∧
      (settle high low ys.head?).units = roundUnits (z + total ys) := by
  cases ys with
  | nil =>
      rw [total_nil, Int.add_zero]
      exact ⟨hhigh, hunits⟩
  | cons w ws =>
      obtain ⟨j, hj, hjdvd⟩ := hdvd w List.mem_cons_self
      have hr := natAbs_total_lt hys hj
      have hsign := total_sign hys
      have hne : roundUnits z ≠ z := by omega
      have herr : z - roundUnits z = low.units := by omega
      have hle := error_le z
      have hside := sameSide_iff hlow (hys.finite w List.mem_cons_self)
      have hlowLe := two_pow_le_natAbs (Int.dvd_sub hjdvd (dvd_roundUnits hjdvd)) (by omega)
      change (settle high low (some w)).isFinite = true ∧ _
      rcases Nat.eq_or_lt_of_le hle with htie | hlt
      · by_cases hsame : sameSide low w = true
        · -- A tie that is broken away from the chosen neighbour.
          have hmoved := roundUnits_add_of_tie hjdvd hne hr (by omega) htie (by
            rcases hside.mp hsame with h | h <;> omega)
          rw [herr, ← hunits] at hmoved
          have hgrid := onGrid_roundUnits (z + total (w :: ws))
          rw [hmoved] at hgrid
          rw [herr] at htie
          obtain ⟨hfin, hsettle⟩ := settle_of_tie hhigh hunits hlow hexact htie hgrid hsame
          exact ⟨hfin, by rw [List.head?_cons, hsettle, hmoved]⟩
        · have hkeep := roundUnits_add_of_lt hjdvd hne hr (by
            rw [hside] at hsame
            omega)
          have hsettle : settle high low (some w) = high := by
            unfold settle
            simp [hsame]
          rw [List.head?_cons, hsettle, hkeep]
          exact ⟨hhigh, hunits⟩
      · have hkeep := roundUnits_add_of_lt hjdvd hne hr (error_add_lt hjdvd hne hr hlt)
        rw [herr] at hlt
        rw [List.head?_cons, settle_of_not_tie hhigh hunits hlow hexact hlow0 hlt w, hkeep]
        exact ⟨hhigh, hunits⟩

end Settle

/-! ## Adding the partials -/

/-- The sums that are computed while partials are added from the greatest down. -/
def collapseHighs (high : Binary64) : List Binary64 → List Binary64
  | [] => []
  | y :: ys =>
      let sum := high + y
      let low := y - (sum - high)
      sum :: if low.isZero then collapseHighs sum ys else []

/-- Partials added from the greatest down give the rounding of their exact sum, or
one of the sums overflows and is the result. -/
theorem collapse_cases {high : Binary64} {ys : List Binary64} (h : Descending (high :: ys)) :
    ((collapse high ys).isFinite = true ∧
        (collapse high ys).units = roundUnits (total (high :: ys))) ∨
      ∃ t : Bool, .infinity t ∈ collapseHighs high ys ∧ collapse high ys = .infinity t := by
  induction ys generalizing high with
  | nil =>
      obtain ⟨hfin, _⟩ := descending_cons.mp h
      left
      rw [total_cons, total_nil, Int.add_zero, roundUnits_eq (onGrid_units high)]
      exact ⟨hfin, rfl⟩
  | cons y ys ih =>
      obtain ⟨hhigh, _, hbelow, hrest⟩ := descending_cons.mp h
      obtain ⟨hy, hy0, hbelowY, hys⟩ := descending_cons.mp hrest
      have hlt := (hbelow y List.mem_cons_self).natAbs_lt (h.nonzero high List.mem_cons_self)
      -- What is left is below both numbers, so it is below the last digit of their sum.
      have htail : ∀ q ∈ ys, ∃ j : Nat,
          q.units.natAbs < 2 ^ j ∧ (2 : Int) ^ j ∣ high.units + y.units := by
        intro q hq
        have hq0 := hys.nonzero q hq
        exact ⟨q.units.natAbs.log2 + 1, Nat.lt_log2_self,
          Int.dvd_add ((hbelow q (List.mem_cons_of_mem y hq)).dvd hq0) ((hbelowY q hq).dvd hq0)⟩
      simp only [collapse, collapseHighs]
      rcases highLow_cases hhigh hy hlt.le with ⟨hfin, hunits, hlow, hexact⟩ | ⟨t, hinf, hlow⟩
      · by_cases hzero : (y - (high + y - high)).isZero = true
        · rw [if_pos hzero, if_pos hzero]
          have hlow0 := (isZero_iff hlow).mp hzero
          have hsum : (high + y).units = high.units + y.units := by omega
          have hnext : Descending ((high + y) :: ys) := by
            refine (descending_cons (p := high + y)).mpr ⟨hfin, by omega, ?_, hys⟩
            intro q hq
            obtain ⟨j, hj, hjdvd⟩ := htail q hq
            exact ⟨j, hj, by rwa [hsum]⟩
          rcases ih hnext with ⟨hres, hresUnits⟩ | ⟨t, hmem, hres⟩
          · left
            refine ⟨hres, ?_⟩
            rw [hresUnits, total_cons, total_cons, total_cons, hsum, Int.add_assoc]
          · exact Or.inr ⟨t, List.mem_cons_of_mem _ hmem, hres⟩
        · rw [if_neg hzero]
          have hlow0 : (y - (high + y - high)).units ≠ 0 := fun h0 =>
            hzero ((isZero_iff hlow).mpr h0)
          left
          rw [total_cons, total_cons, ← Int.add_assoc]
          exact settle_units hfin hunits hlow hexact hlow0 hys htail
      · right
        refine ⟨t, List.mem_cons.mpr (Or.inl hinf.symm), ?_⟩
        have hne : (y - (high + y - high)).isZero = false := by
          rw [hlow]
          rfl
        rw [hne, if_neg Bool.false_ne_true, hlow, hinf]
        exact settle_infinity t ys.head?

/-- The sums that are computed while the partials are rounded. -/
def roundHighs (partials : List Binary64) : List Binary64 :=
  match partials.reverse with
  | [] => []
  | top :: lower => collapseHighs top lower

/-- An expansion is rounded to the rounding of its exact sum, unless a sum
overflows. -/
theorem roundPartials_cases {ps : List Binary64} (h : Expansion ps) :
    ((roundPartials ps).isFinite = true ∧ (roundPartials ps).units = roundUnits (total ps)) ∨
      ∃ t : Bool, .infinity t ∈ roundHighs ps ∧ roundPartials ps = .infinity t := by
  have hdesc := h.descending
  unfold roundPartials roundHighs
  rw [← total_reverse]
  cases hrev : ps.reverse with
  | nil => exact Or.inl ⟨rfl, by decide⟩
  | cons top lower =>
      rw [hrev] at hdesc
      exact collapse_cases hdesc

/-- An expansion whose sum is zero has no partials. -/
theorem Expansion.eq_nil_of_total_eq_zero {ps : List Binary64} (h : Expansion ps)
    (h0 : total ps = 0) : ps = [] := by
  have hdesc := h.descending
  cases hrev : ps.reverse with
  | nil => exact List.reverse_eq_nil_iff.mp hrev
  | cons top lower =>
      rw [hrev] at hdesc
      have hsign := total_sign hdesc
      rw [← hrev, total_reverse] at hsign
      omega

end MetricFormula.ExactSum
