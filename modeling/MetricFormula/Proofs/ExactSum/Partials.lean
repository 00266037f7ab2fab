/-
  Proofs/ExactSum/Partials: what carrying a number through the partials preserves.

  The partials are an EXPANSION: finite, none of them zero, and each one below the
  lowest set digit of every later one.  Carrying a number through an expansion either
  gives an expansion again, whose exact sum has grown by the number, or the carried
  sum overflows at some partial (`carry_cases`).  From there on it stays an infinity:
  the opposite infinity is left behind where it happened, and NaN at every later
  partial.
-/
import MetricFormula.Proofs.ExactSum.TwoSum

set_option autoImplicit false

namespace MetricFormula.ExactSum

open Binary64

/-! ## Expansions -/

/-- `x` is smaller in magnitude than the lowest set digit of `y`. -/
def Below (x y : Int) : Prop := ∃ k : Nat, x.natAbs < 2 ^ k ∧ (2 : Int) ^ k ∣ y

/-- The exact sum of numbers, in units. -/
def total (xs : List Binary64) : Int := (xs.map units).sum

@[simp] theorem total_nil : total [] = 0 := rfl

@[simp] theorem total_cons (x : Binary64) (xs : List Binary64) :
    total (x :: xs) = x.units + total xs := by
  simp [total]

@[simp] theorem total_append (xs ys : List Binary64) : total (xs ++ ys) = total xs + total ys := by
  simp [total]

/-- Finite numbers, none of them zero, each one below the lowest set digit of every
later one. -/
structure Expansion (ps : List Binary64) : Prop where
  finite : ∀ p ∈ ps, p.isFinite = true
  nonzero : ∀ p ∈ ps, p.units ≠ 0
  below : ps.Pairwise fun p q => Below p.units q.units

theorem expansion_nil : Expansion [] :=
  ⟨by simp, by simp, List.Pairwise.nil⟩

theorem expansion_cons {p : Binary64} {ps : List Binary64} :
    Expansion (p :: ps) ↔
      p.isFinite = true ∧ p.units ≠ 0 ∧ (∀ q ∈ ps, Below p.units q.units) ∧ Expansion ps := by
  constructor
  · intro h
    obtain ⟨hbelow, hrest⟩ := List.pairwise_cons.mp h.below
    exact ⟨h.finite p List.mem_cons_self, h.nonzero p List.mem_cons_self, hbelow,
      fun q hq => h.finite q (List.mem_cons_of_mem p hq),
      fun q hq => h.nonzero q (List.mem_cons_of_mem p hq), hrest⟩
  · rintro ⟨hfin, hne, hbelow, hps⟩
    refine ⟨?_, ?_, List.pairwise_cons.mpr ⟨hbelow, hps.below⟩⟩
    · intro q hq
      rcases List.mem_cons.mp hq with rfl | hq
      · exact hfin
      · exact hps.finite q hq
    · intro q hq
      rcases List.mem_cons.mp hq with rfl | hq
      · exact hne
      · exact hps.nonzero q hq

/-- The least power of two above a number other than zero divides all that it lies
below. -/
theorem Below.dvd {x y : Int} (h : Below x y) (hx : x ≠ 0) :
    (2 : Int) ^ (x.natAbs.log2 + 1) ∣ y := by
  obtain ⟨k, hk, hdvd⟩ := h
  refine dvd_trans (pow_dvd_pow 2 ?_) hdvd
  exact (Nat.log2_lt (Int.natAbs_ne_zero.mpr hx)).mpr hk

/-- What lies below a number other than zero is smaller in magnitude. -/
theorem Below.natAbs_lt {x y : Int} (h : Below x y) (hy : y ≠ 0) : x.natAbs < y.natAbs := by
  obtain ⟨k, hk, hdvd⟩ := h
  have hle : 2 ^ k ≤ y.natAbs := by
    have := Int.natAbs_le_of_dvd_ne_zero hdvd hy
    rwa [Int.natAbs_pow] at this
  omega

/-! ## Infinities that are carried -/

theorem twoSum_infinity {t : Bool} {y : Binary64} (hy : y.isFinite = true) :
    twoSum (.infinity t) y = (.infinity t, .nan) := by
  cases y with
  | nan => simp [isFinite] at hy
  | infinity s => simp [isFinite] at hy
  | finite s m => cases t <;> rfl

theorem carry_infinity {t : Bool} {ps : List Binary64} (hps : ∀ p ∈ ps, p.isFinite = true) :
    carry (.infinity t) ps = (List.replicate ps.length .nan, .infinity t) := by
  induction ps with
  | nil => rfl
  | cons p ps ih =>
      have hrest := ih fun q hq => hps q (List.mem_cons_of_mem p hq)
      simp only [carry, twoSum_infinity (hps p List.mem_cons_self), hrest]
      rfl

/-! ## One step of a carry -/

/-- What a finite carry leaves: the partials that stay behind, none of them zero, and
the carried sum, which may be. -/
structure Carried (sum : Int) (r : List Binary64 × Binary64) : Prop where
  finite : ∀ p ∈ r.1, p.isFinite = true
  nonzero : ∀ p ∈ r.1, p.units ≠ 0
  top_finite : r.2.isFinite = true
  below : (r.1 ++ [r.2]).Pairwise fun p q => Below p.units q.units
  total_eq : total r.1 + r.2.units = sum

/-- A loss below all that the rest of the carry leaves stays behind, unless it is zero. -/
theorem Carried.cons {sum : Int} {low top : Binary64} {kept : List Binary64}
    (h : Carried sum (kept, top)) (hlow : low.isFinite = true)
    (hbelow : ∀ q ∈ kept ++ [top], Below low.units q.units) :
    Carried (low.units + sum) (if low.isZero then kept else low :: kept, top) := by
  have htotal := h.total_eq
  dsimp only at htotal
  by_cases hzero : low.isZero = true
  · rw [if_pos hzero]
    have hlow0 := (isZero_iff hlow).mp hzero
    refine ⟨h.finite, h.nonzero, h.top_finite, h.below, ?_⟩
    dsimp only
    omega
  · rw [if_neg hzero]
    have hlow0 : low.units ≠ 0 := fun h0 => hzero ((isZero_iff hlow).mpr h0)
    refine ⟨?_, ?_, h.top_finite, List.pairwise_cons.mpr ⟨hbelow, h.below⟩, ?_⟩
    · simpa [hlow] using h.finite
    · simpa [hlow0] using h.nonzero
    · simp only [total_cons]
      omega

/-- What a carry does when the sum at the first partial is finite. -/
theorem carry_cons_of_twoSum {x y high low top : Binary64} {ys kept : List Binary64}
    (hsum : twoSum x y = (high, low)) (hcarry : carry high ys = (kept, top)) :
    carry x (y :: ys) = (if low.isZero then kept else low :: kept, top) := by
  simp only [carry, hsum, hcarry]

/-- A power of two that divides the number and all partials divides all that the
carry leaves. -/
theorem dvd_of_carry {k : Nat} {ps : List Binary64} (hps : ∀ p ∈ ps, p.isFinite = true)
    (hdvd : ∀ p ∈ ps, (2 : Int) ^ k ∣ p.units) {x : Binary64} (hx : x.isFinite = true)
    (hxdvd : (2 : Int) ^ k ∣ x.units) (htop : (carry x ps).2.isFinite = true) :
    ∀ q ∈ (carry x ps).1 ++ [(carry x ps).2], (2 : Int) ^ k ∣ q.units := by
  induction ps generalizing x with
  | nil => simpa [carry] using hxdvd
  | cons y ys ih =>
      have hys : ∀ p ∈ ys, p.isFinite = true := fun p hp => hps p (List.mem_cons_of_mem y hp)
      have hy := hps y List.mem_cons_self
      have hydvd := hdvd y List.mem_cons_self
      rcases hsum : twoSum x y with ⟨high, low⟩
      rcases hcarry : carry high ys with ⟨kept, top⟩
      rw [carry_cons_of_twoSum hsum hcarry] at htop ⊢
      rcases twoSum_cases hx hy with ⟨hhigh, hunits, hlow, hexact⟩ | ⟨t, ht⟩
      · rw [hsum] at hhigh hunits hexact
        have hhighDvd : (2 : Int) ^ k ∣ high.units := by
          rw [hunits]
          exact dvd_roundUnits (Int.dvd_add hxdvd hydvd)
        have hrest := ih hys (fun p hp => hdvd p (List.mem_cons_of_mem y hp)) hhigh hhighDvd
          (by rw [hcarry]; exact htop)
        rw [hcarry] at hrest
        intro q hq
        dsimp only at hq
        split at hq
        · exact hrest q hq
        · rcases List.mem_cons.mp hq with rfl | hq
          · have hlowEq : q.units = x.units + y.units - high.units := by
              dsimp only at hexact
              omega
            rw [hlowEq]
            exact Int.dvd_sub (Int.dvd_add hxdvd hydvd) hhighDvd
          · exact hrest q hq
      · -- An infinity is carried to the end.
        have hhigh : high = .infinity t := by
          rw [hsum] at ht
          exact congrArg Prod.fst ht
        rw [hhigh, carry_infinity hys] at hcarry
        rw [← congrArg Prod.snd hcarry] at htop
        simp [isFinite] at htop

/-- What a sum leaves behind lies below the carried sum and below the partials that
are still to come, all by one power of two. -/
theorem exists_two_pow_of_twoSum {x y : Binary64} {ys : List Binary64}
    (hx : x.isFinite = true) (hps : Expansion (y :: ys))
    (hfin : (twoSum x y).1.isFinite = true) :
    ∃ k : Nat, (twoSum x y).2.units.natAbs < 2 ^ k ∧ (2 : Int) ^ k ∣ (twoSum x y).1.units ∧
      ∀ p ∈ ys, (2 : Int) ^ k ∣ p.units := by
  obtain ⟨hy, hy0, hbelow, _⟩ := expansion_cons.mp hps
  rcases twoSum_cases hx hy with ⟨_, hunits, _, hexact⟩ | ⟨t, ht⟩
  · obtain ⟨k, hk, hkdvd⟩ := error_lt_of_roundUnits (x.units + y.units)
    have hle := error_le_right (b := y.units) (onGrid_units x)
    have hlog := Nat.lt_log2_self (n := y.units.natAbs)
    rw [← hunits] at hk hkdvd hle
    refine ⟨min k (y.units.natAbs.log2 + 1), ?_, ?_, ?_⟩
    · rcases min_choice k (y.units.natAbs.log2 + 1) with h | h <;> rw [h] <;> omega
    · exact dvd_trans (pow_dvd_pow 2 (min_le_left _ _)) hkdvd
    · intro p hp
      exact dvd_trans (pow_dvd_pow 2 (min_le_right _ _)) ((hbelow p hp).dvd hy0)
  · rw [ht] at hfin
    simp [isFinite] at hfin

/-! ## A whole carry -/

/-- A number carried through an expansion leaves an expansion and the carried sum, or
the sum overflows at one of the partials. -/
theorem carry_cases {ps : List Binary64} (hps : Expansion ps) {x : Binary64}
    (hx : x.isFinite = true) :
    Carried (x.units + total ps) (carry x ps) ∨
      ∃ (lows : List Binary64) (t : Bool) (n : Nat), (∀ l ∈ lows, l.isFinite = true) ∧
        carry x ps = (lows ++ .infinity (!t) :: List.replicate n .nan, .infinity t) := by
  induction ps generalizing x with
  | nil =>
      left
      exact ⟨by simp [carry], by simp [carry], hx, by simp [carry], by simp [carry]⟩
  | cons y ys ih =>
      obtain ⟨hy, _, _, hys⟩ := expansion_cons.mp hps
      have hpower := exists_two_pow_of_twoSum hx hps
      rcases hsum : twoSum x y with ⟨high, low⟩
      rcases hcarry : carry high ys with ⟨kept, top⟩
      rw [carry_cons_of_twoSum hsum hcarry]
      have hcases := twoSum_cases hx hy
      rw [hsum] at hcases hpower
      rcases hcases with ⟨hhigh, _, hlow, hexact⟩ | ⟨t, ht⟩
      · dsimp only at hhigh hlow hexact hpower
        rcases ih hys hhigh with hrest | ⟨lows, t, n, hlows, heq⟩
        · left
          obtain ⟨k, hk, hkhigh, hkys⟩ := hpower hhigh
          have hdvd := dvd_of_carry hys.finite hkys hhigh hkhigh hrest.top_finite
          rw [hcarry] at hrest hdvd
          have hcons := hrest.cons hlow fun q hq => ⟨k, hk, hdvd q hq⟩
          rwa [show low.units + (high.units + total ys) = x.units + total (y :: ys) by
            rw [total_cons]
            omega] at hcons
        · right
          rw [hcarry] at heq
          obtain ⟨rfl, rfl⟩ := Prod.mk.inj heq
          by_cases hzero : low.isZero = true
          · rw [if_pos hzero]
            exact ⟨lows, t, n, hlows, rfl⟩
          · rw [if_neg hzero]
            exact ⟨low :: lows, t, n, by simpa [hlow] using hlows, rfl⟩
      · right
        obtain ⟨rfl, rfl⟩ := Prod.mk.inj ht
        rw [carry_infinity hys.finite] at hcarry
        obtain ⟨rfl, rfl⟩ := Prod.mk.inj hcarry
        exact ⟨[], t, ys.length, by simp, rfl⟩

/-- The carried sum of an expansion is finite or an infinity. -/
theorem carried_of_top_ne_infinity {ps : List Binary64} (hps : Expansion ps) {x : Binary64}
    (hx : x.isFinite = true) (htop : ∀ t : Bool, (carry x ps).2 ≠ .infinity t) :
    Carried (x.units + total ps) (carry x ps) := by
  rcases carry_cases hps hx with h | ⟨_, t, _, _, heq⟩
  · exact h
  · exact absurd (congrArg Prod.snd heq) (htop t)

/-! ## Inserting a number -/

/-- Inserting a finite number whose carried sum does not overflow keeps the expansion
and adds the number to its exact sum. -/
theorem addFinite_of_top_ne_infinity {s : ExactSum} (hs : Expansion s.partials) {x : Binary64}
    (hx : x.isFinite = true) (htop : ∀ t : Bool, (carry x s.partials).2 ≠ .infinity t) :
    Expansion (s.addFinite x).partials ∧
      total (s.addFinite x).partials = x.units + total s.partials ∧
      (s.addFinite x).special = s.special := by
  have h := carried_of_top_ne_infinity hs hx htop
  unfold addFinite
  rcases hcarry : carry x s.partials with ⟨kept, top⟩
  rw [hcarry] at h
  have htotal := h.total_eq
  have hfinite := h.top_finite
  dsimp only at htotal hfinite ⊢
  rw [hfinite]
  simp only [Bool.not_true, Bool.false_eq_true, if_false]
  by_cases hzero : top.isZero = true
  · rw [if_pos hzero]
    have htop0 := (isZero_iff hfinite).mp hzero
    refine ⟨⟨h.finite, h.nonzero, (List.pairwise_append.mp h.below).1⟩, ?_, rfl⟩
    dsimp only
    omega
  · rw [if_neg hzero]
    have htop0 : top.units ≠ 0 := fun h0 => hzero ((isZero_iff hfinite).mpr h0)
    refine ⟨⟨?_, ?_, h.below⟩, ?_, rfl⟩
    · intro p hp
      rcases List.mem_append.mp hp with hp | hp
      · exact h.finite p hp
      · rwa [List.mem_singleton.mp hp]
    · intro p hp
      rcases List.mem_append.mp hp with hp | hp
      · exact h.nonzero p hp
      · rwa [List.mem_singleton.mp hp]
    · simp only [total_append, total_cons, total_nil]
      omega

end MetricFormula.ExactSum
