/-
  Proofs/ExactSum/Overflow: what becomes of a sum that overflows on the way.

  A carried sum may overflow although the exact sum does not.  The infinity then
  counts among what is not finite, and the opposite infinity is left among the
  partials (`insert_overflow`).  If another finite number is still to come, it meets
  that opposite, and the sum is NaN from there on (`Overflowed.insert_finite`).

  `overflow` finds the first overflow of a run, and the sum follows from it:

      foldl_of_never         the partials are an expansion of the exact sum
      toBinary64_of_last     the infinity is added to what is not finite
      toBinary64_of_early    the sum is NaN
-/
import MetricFormula.Proofs.ExactSum.Collapse
import MetricFormula.Proofs.ExactSum.Special

set_option autoImplicit false

namespace MetricFormula.ExactSum

open Binary64

/-! ## After an overflow -/

/-- An infinity or NaN in the place of an infinity that other numbers were added to. -/
def Spoilt (t : Bool) (x : Binary64) : Prop := x = .infinity t ∨ x = .nan

theorem Spoilt.add_right {t : Bool} {x : Binary64} (h : Spoilt t x) (y : Binary64) :
    Spoilt t (x + y) := by
  rcases h with rfl | rfl
  · cases y with
    | nan => exact Or.inr rfl
    | infinity s => cases t <;> cases s <;> first | exact Or.inl rfl | exact Or.inr rfl
    | finite s m => exact Or.inl rfl
  · exact Or.inr (nan_add y)

theorem Spoilt.add_left {t : Bool} {x : Binary64} (h : Spoilt t x) (y : Binary64) :
    Spoilt t (y + x) := by
  rcases h with rfl | rfl
  · cases y with
    | nan => exact Or.inr rfl
    | infinity s => cases t <;> cases s <;> first | exact Or.inl rfl | exact Or.inr rfl
    | finite s m => exact Or.inl rfl
  · exact Or.inr (add_nan y)

/-- Opposite infinities have no sum. -/
theorem Spoilt.add_opposite {t : Bool} {x y : Binary64} (hx : Spoilt t x) (hy : Spoilt (!t) y) :
    x + y = .nan := by
  rcases hx with rfl | rfl
  · rcases hy with rfl | rfl
    · cases t <;> rfl
    · exact add_nan _
  · exact nan_add y

theorem twoSum_eq_add (x y : Binary64) : (twoSum x y).1 = x + y ∨ (twoSum x y).1 = y + x := by
  unfold twoSum
  by_cases h : x.abs.numericLt y.abs = true
  · rw [h]
    exact Or.inr rfl
  · rw [Bool.not_eq_true] at h
    rw [h]
    exact Or.inl rfl

theorem spoilt_twoSum_left {t : Bool} {x : Binary64} (h : Spoilt t x) (y : Binary64) :
    Spoilt t (twoSum x y).1 := by
  rcases twoSum_eq_add x y with heq | heq <;> rw [heq]
  · exact h.add_right y
  · exact h.add_left y

theorem spoilt_carry {t : Bool} {x : Binary64} (h : Spoilt t x) (ps : List Binary64) :
    Spoilt t (carry x ps).2 := by
  induction ps generalizing x with
  | nil => exact h
  | cons y ys ih => exact ih (spoilt_twoSum_left h y)

/-- An infinity among the partials spoils what is carried through them. -/
theorem spoilt_carry_of_mem {t : Bool} {ps : List Binary64} (h : .infinity t ∈ ps)
    (x : Binary64) : Spoilt t (carry x ps).2 := by
  induction ps generalizing x with
  | nil => simp at h
  | cons y ys ih =>
      rcases List.mem_cons.mp h with rfl | h
      · refine spoilt_carry (x := (twoSum x (.infinity t)).1) ?_ ys
        have hself : Spoilt t (.infinity t) := Or.inl rfl
        rcases twoSum_eq_add x (.infinity t) with heq | heq <;> rw [heq]
        · exact hself.add_left x
        · exact hself.add_right x
      · exact ih h (twoSum x y).1

/-- What is left by a carried sum that overflowed: its opposite among the partials. -/
structure Overflowed (t : Bool) (s : ExactSum) : Prop where
  partials : .infinity (!t) ∈ s.partials
  special : ∃ v : Binary64, s.special = some v ∧ Spoilt t v

theorem insert_special (s : ExactSum) {x : Binary64} (hx : x.isFinite = false) :
    s.insert x = { s with special := absorb s.special x } := by
  unfold insert absorb addSpecial
  simp [hx]

theorem Overflowed.insert {t : Bool} {s : ExactSum} (h : Overflowed t s) {x : Binary64}
    (hx : x.isFinite = false) : Overflowed t (s.insert x) := by
  obtain ⟨v, hv, hspoilt⟩ := h.special
  rw [insert_special s hx]
  refine ⟨h.partials, v + x, ?_, hspoilt.add_right x⟩
  simp [absorb, hx, hv]

/-- A finite number after an overflow. -/
theorem Overflowed.insert_finite {t : Bool} {s : ExactSum} (h : Overflowed t s) {x : Binary64}
    (hx : x.isFinite = true) : (s.insert x).special = some .nan := by
  obtain ⟨v, hv, hspoilt⟩ := h.special
  have htop := spoilt_carry_of_mem h.partials x
  have hnot : (carry x s.partials).2.isFinite = false := by
    rcases htop with heq | heq <;> rw [heq] <;> rfl
  unfold ExactSum.insert addFinite
  simp [hx, hnot, addSpecial, hv, hspoilt.add_opposite htop]

theorem special_insert_nan {s : ExactSum} (h : s.special = some .nan) (x : Binary64) :
    (s.insert x).special = some .nan := by
  unfold insert addFinite addSpecial
  split
  · dsimp only
    split
    · simp [h]
    · split <;> exact h
  · simp [h]

theorem special_foldl_nan {s : ExactSum} (h : s.special = some .nan) (xs : List Binary64) :
    (xs.foldl insert s).special = some .nan := by
  induction xs generalizing s with
  | nil => exact h
  | cons x xs ih => exact ih (special_insert_nan h x)

/-- After an overflow the sum is what is not finite or, if a finite number follows,
NaN. -/
theorem Overflowed.special_foldl {t : Bool} {s : ExactSum} (h : Overflowed t s)
    (xs : List Binary64) :
    (xs.foldl ExactSum.insert s).special =
      if xs.any isFinite then some .nan else xs.foldl absorb s.special := by
  induction xs generalizing s with
  | nil => rfl
  | cons x xs ih =>
      rw [List.foldl_cons, List.foldl_cons, List.any_cons]
      by_cases hx : x.isFinite = true
      · rw [special_foldl_nan (h.insert_finite hx), hx]
        rfl
      · rw [Bool.not_eq_true] at hx
        rw [ih (h.insert hx), insert_special s hx, hx, Bool.false_or]

/-! ## Where a sum overflows -/

/-- The sign of an infinity. -/
def infiniteSign? : Binary64 → Option Bool
  | .infinity t => some t
  | _ => none

theorem infiniteSign?_eq_some {x : Binary64} {t : Bool} :
    infiniteSign? x = some t ↔ x = .infinity t := by
  cases x <;> simp [infiniteSign?]

theorem infiniteSign?_eq_none {x : Binary64} :
    infiniteSign? x = none ↔ ∀ t : Bool, x ≠ .infinity t := by
  cases x <;> simp [infiniteSign?]

/-- Where the sum of the finite numbers first overflows: nowhere, with the last of
them or when the partials are rounded, or earlier. -/
inductive Overflow where
  | never
  | last (negative : Bool)
  | early
  deriving DecidableEq

/-- Where the sum of the finite numbers first overflows, from a running sum on.  The
partials are rounded only if everything was finite. -/
def overflow (s : ExactSum) : List Binary64 → Overflow
  | [] =>
      match s.special, infiniteSign? (roundPartials s.partials) with
      | none, some t => .last t
      | _, _ => .never
  | x :: xs =>
      if x.isFinite then
        match infiniteSign? (carry x s.partials).2 with
        | some t => if xs.any isFinite then .early else .last t
        | none => overflow (s.insert x) xs
      else overflow (s.insert x) xs

section Step

variable {s : ExactSum} {x : Binary64}

theorem insert_of_isFinite (hx : x.isFinite = true) : s.insert x = s.addFinite x := if_pos hx

/-- A finite number whose carried sum overflows. -/
theorem insert_overflow (hs : Expansion s.partials) (hx : x.isFinite = true) {t : Bool}
    (htop : (carry x s.partials).2 = .infinity t) :
    Overflowed t (s.insert x) ∧ (s.insert x).special = absorb s.special (.infinity t) := by
  rcases carry_cases hs hx with h | ⟨lows, u, n, _, heq⟩
  · have hfin := h.top_finite
    rw [htop] at hfin
    simp [isFinite] at hfin
  · rw [heq] at htop
    have hut : u = t := by simpa using htop
    subst hut
    have hinsert : s.insert x =
        ⟨lows ++ .infinity (!u) :: List.replicate n .nan, absorb s.special (.infinity u)⟩ := by
      rw [insert_of_isFinite hx]
      unfold addFinite
      rw [heq]
      simp [isFinite, addSpecial, absorb]
    rw [hinsert]
    refine ⟨⟨by simp, s.special.getD .zero + .infinity u, rfl, ?_⟩, rfl⟩
    exact Spoilt.add_left (Or.inl rfl) _

theorem expansion_insert_of_not_isFinite (hs : Expansion s.partials) (hx : x.isFinite = false) :
    Expansion (s.insert x).partials := by
  rw [insert_special s hx]
  exact hs

theorem units_of_not_isFinite (hx : x.isFinite = false) : x.units = 0 := by
  cases x with
  | nan => rfl
  | infinity s => rfl
  | finite s m => simp [isFinite] at hx

end Step

section Run

variable {xs : List Binary64} {s : ExactSum}

/-- Without an overflow the partials are an expansion of the exact sum, and what is
not finite is summed apart. -/
theorem foldl_of_never (hs : Expansion s.partials) (h : overflow s xs = .never) :
    Expansion (xs.foldl insert s).partials ∧
      total (xs.foldl insert s).partials = total s.partials + total xs ∧
      (xs.foldl insert s).special = xs.foldl absorb s.special ∧
      overflow (xs.foldl insert s) [] = .never := by
  induction xs generalizing s with
  | nil => exact ⟨hs, by simp, rfl, h⟩
  | cons x xs ih =>
      rw [overflow] at h
      rw [List.foldl_cons, List.foldl_cons, total_cons]
      by_cases hx : x.isFinite = true
      · rw [if_pos hx] at h
        cases htop : infiniteSign? (carry x s.partials).2 with
        | some t =>
            rw [htop] at h
            dsimp only at h
            split at h <;> simp at h
        | none =>
            rw [htop] at h
            obtain ⟨hexp, htotal, hspecial⟩ :=
              addFinite_of_top_ne_infinity hs hx (infiniteSign?_eq_none.mp htop)
            rw [← insert_of_isFinite hx] at hexp htotal hspecial
            obtain ⟨hexp', htotal', hspecial', hend⟩ := ih hexp h
            refine ⟨hexp', ?_, ?_, hend⟩
            · rw [htotal', htotal]
              omega
            · rw [hspecial', hspecial, absorb_of_isFinite hx]
      · rw [Bool.not_eq_true] at hx
        rw [hx, if_neg Bool.false_ne_true] at h
        obtain ⟨hexp, htotal, hspecial, hend⟩ := ih (expansion_insert_of_not_isFinite hs hx) h
        rw [insert_special s hx] at htotal hspecial ⊢
        rw [insert_special s hx] at hexp hend
        refine ⟨hexp, ?_, hspecial, hend⟩
        rw [htotal, units_of_not_isFinite hx]
        dsimp only
        omega

/-- An overflow with the last finite number counts among what is not finite. -/
theorem toBinary64_of_last {t : Bool} (hs : Expansion s.partials)
    (h : overflow s xs = .last t) :
    (xs.foldl insert s).toBinary64 = (xs.foldl absorb s.special).getD .zero + .infinity t := by
  induction xs generalizing s with
  | nil =>
      rw [overflow] at h
      split at h
      · rename_i hspecial hround
        rw [Overflow.last.injEq] at h
        subst h
        rw [List.foldl_nil, List.foldl_nil, toBinary64, hspecial]
        rw [infiniteSign?_eq_some] at hround
        exact hround
      · simp at h
  | cons x xs ih =>
      rw [overflow] at h
      rw [List.foldl_cons, List.foldl_cons]
      by_cases hx : x.isFinite = true
      · rw [if_pos hx] at h
        rw [absorb_of_isFinite hx]
        cases htop : infiniteSign? (carry x s.partials).2 with
        | some u =>
            rw [htop] at h
            dsimp only at h
            split at h
            · simp at h
            · rename_i hlast
              rw [Overflow.last.injEq] at h
              subst h
              obtain ⟨hover, hspecial⟩ := insert_overflow hs hx (infiniteSign?_eq_some.mp htop)
              rw [toBinary64, hover.special_foldl xs, if_neg hlast, hspecial,
                foldl_absorb_absorb]
              rfl
        | none =>
            rw [htop] at h
            obtain ⟨hexp, _, hspecial⟩ :=
              addFinite_of_top_ne_infinity hs hx (infiniteSign?_eq_none.mp htop)
            rw [← insert_of_isFinite hx] at hexp hspecial
            rw [ih hexp h, hspecial]
      · rw [Bool.not_eq_true] at hx
        rw [hx, if_neg Bool.false_ne_true] at h
        rw [ih (expansion_insert_of_not_isFinite hs hx) h, insert_special s hx]

/-- After an earlier overflow the sum is NaN. -/
theorem toBinary64_of_early (hs : Expansion s.partials) (h : overflow s xs = .early) :
    (xs.foldl insert s).toBinary64 = .nan := by
  induction xs generalizing s with
  | nil =>
      rw [overflow] at h
      split at h <;> simp at h
  | cons x xs ih =>
      rw [overflow] at h
      rw [List.foldl_cons]
      by_cases hx : x.isFinite = true
      · rw [if_pos hx] at h
        cases htop : infiniteSign? (carry x s.partials).2 with
        | some u =>
            rw [htop] at h
            dsimp only at h
            split at h
            · rename_i hmore
              obtain ⟨hover, _⟩ := insert_overflow hs hx (infiniteSign?_eq_some.mp htop)
              rw [toBinary64, hover.special_foldl xs, if_pos hmore]
              rfl
            · simp at h
        | none =>
            rw [htop] at h
            obtain ⟨hexp, _, _⟩ :=
              addFinite_of_top_ne_infinity hs hx (infiniteSign?_eq_none.mp htop)
            rw [← insert_of_isFinite hx] at hexp
            exact ih hexp h
      · rw [Bool.not_eq_true] at hx
        rw [hx, if_neg Bool.false_ne_true] at h
        exact ih (expansion_insert_of_not_isFinite hs hx) h

/-- A run that does not overflow rounds its partials to a number that is no infinity. -/
theorem roundPartials_ne_infinity_of_never (hspecial : s.special = none)
    (h : overflow s [] = .never) (t : Bool) : roundPartials s.partials ≠ .infinity t := by
  intro hinf
  rw [overflow, hspecial, infiniteSign?_eq_some.mpr hinf] at h
  simp at h

/-- An expansion whose rounding does not overflow is rounded to its exact sum in
units. -/
theorem roundPartials_eq_ofUnits {ps : List Binary64} (hps : Expansion ps)
    (hround : ∀ t : Bool, roundPartials ps ≠ .infinity t) :
    roundPartials ps = ofUnits false (total ps) ∧ (roundPartials ps).isFinite = true := by
  rcases roundPartials_cases hps with ⟨hfin, hunits⟩ | ⟨t, _, hinf⟩
  · refine ⟨?_, hfin⟩
    by_cases h0 : total ps = 0
    · rw [hps.eq_nil_of_total_eq_zero h0]
      rfl
    · have hlt := natAbs_units_lt (roundPartials ps)
      have hne : roundUnits (total ps) ≠ 0 := by
        have h := le_natAbs_roundUnits_of_le (z := total ps) (t := 1) ⟨1, 0, by decide, rfl⟩
          (by omega)
        omega
      rcases ofUnits_cases false (total ps) with ⟨hfin', hunits'⟩ | ⟨_, hle⟩
      · exact eq_of_units_eq hfin hfin' (hunits.trans hunits'.symm) (by rwa [hunits])
      · omega
  · exact absurd hinf (hround t)

end Run

end MetricFormula.ExactSum
