/-
  Binary64/Magnitude: the finite magnitudes of binary64, and rounding to them.

  Every finite binary64 value is a whole multiple of the least positive one,
  2^-1074.  A magnitude is that multiple: a natural number with at most 53
  significant binary digits, below the units of 2^1024.

  All arithmetic rounds an exact ratio of natural numbers once, to the nearest
  magnitude, a tie going to the even significand (`ofRatio?`).  What would round
  to 2^1024 or above has no magnitude.
-/
set_option autoImplicit false

namespace MetricFormula.Binary64

/-- The least positive number is `2 ^ -unitPlaces`. -/
@[irreducible] def unitPlaces : Nat := 1074

theorem unitPlaces_pos : 0 < unitPlaces := by
  unfold unitPlaces
  omega

/-- The units of one. -/
def unitsPerOne : Nat := Nat.pow 2 unitPlaces

/-- The units of 2^1024, which is too large to be held. -/
def limit : Nat := Nat.pow 2 (1024 + unitPlaces)

theorem unitsPerOne_pos : 0 < unitsPerOne := Nat.two_pow_pos _

theorem limit_pos : 0 < limit := Nat.two_pow_pos _

theorem two_pow_le_limit {k : Nat} (h : k ≤ 1024 + unitPlaces) : Nat.pow 2 k ≤ limit :=
  Nat.pow_le_pow_right (by omega) h

theorem two_pow_lt_limit {k : Nat} (h : k < 1024 + unitPlaces) : Nat.pow 2 k < limit :=
  Nat.pow_lt_pow_right (by omega) h

/-- The number of significands of 53 digits or fewer: 2^53. -/
def significands : Nat := 0x20000000000000

/-- A number of units that binary64 can hold: its lowest bits beyond 53 significant
ones are clear, and it is below the limit. -/
def IsRepresentable (units : Nat) : Prop :=
  Nat.pow 2 (units.log2 - 52) ∣ units ∧ units < limit

instance (units : Nat) : Decidable (IsRepresentable units) :=
  inferInstanceAs (Decidable (_ ∧ _))

/-- A finite magnitude, in units of 2^-1074. -/
structure Magnitude where
  units : Nat
  representable : IsRepresentable units
  deriving DecidableEq

namespace Magnitude

/-- A significand of up to 53 digits, and 2^53 itself, can be held at any scale
within the bound. -/
theorem isRepresentable_of_le {n k : Nat} (hn : n ≤ significands) (hlt : n * Nat.pow 2 k < limit) :
    IsRepresentable (n * Nat.pow 2 k) := by
  change n ≤ 2 ^ 53 at hn
  change IsRepresentable (n * 2 ^ k)
  refine ⟨?_, hlt⟩
  by_cases h0 : n = 0
  · subst h0
    simp
  · have hpos : 0 < 2 ^ k := Nat.two_pow_pos k
    have hne : n * 2 ^ k ≠ 0 := Nat.mul_ne_zero h0 (Nat.ne_of_gt hpos)
    by_cases heq : n = 2 ^ 53
    · subst heq
      rw [← Nat.pow_add, Nat.log2_two_pow]
      exact Nat.pow_dvd_pow 2 (by omega)
    · have hlog : (n * 2 ^ k).log2 < 53 + k := by
        rw [Nat.log2_lt hne, Nat.pow_add]
        exact Nat.mul_lt_mul_of_pos_right (by omega) hpos
      exact Nat.dvd_trans (Nat.pow_dvd_pow 2 (by omega)) (Nat.dvd_mul_left _ _)

/-- The magnitude of zero. -/
def zero : Magnitude := ⟨0, Nat.dvd_zero _, limit_pos⟩

instance : Inhabited Magnitude := ⟨zero⟩

/-- The magnitude of a significand at a scale, unless it is too large. -/
def ofSignificand? (n k : Nat) (hn : n ≤ significands) : Option Magnitude :=
  if h : n * Nat.pow 2 k < limit then some ⟨n * Nat.pow 2 k, isRepresentable_of_le hn h⟩ else none

/-! ## Rounding -/

/-- The number of binary places that do not fit: how far a significand has to be
shifted so that a number of units keeps 53 digits of it. -/
def scale (units : Nat) : Nat := units.log2 - 52

/-- The whole number nearest to `num / den`, a tie going to the even one. -/
def roundHalfEven (num den : Nat) : Nat :=
  let q := num / den
  let r := num % den
  if den < 2 * r ∨ (2 * r = den ∧ q % 2 = 1) then q + 1 else q

theorem roundHalfEven_le (num den : Nat) : roundHalfEven num den ≤ num / den + 1 := by
  unfold roundHalfEven
  dsimp only
  split <;> omega

/-- The whole part of a ratio, cut to the scale of that whole part, has at most 53
digits. -/
theorem div_scale_lt (num den : Nat) :
    num / (den * Nat.pow 2 (scale (num / den))) < significands := by
  change num / (den * 2 ^ scale (num / den)) < 2 ^ 53
  rw [← Nat.div_div_eq_div_mul]
  generalize num / den = q
  rw [Nat.div_lt_iff_lt_mul (Nat.two_pow_pos _), ← Nat.pow_add]
  by_cases hq : q = 0
  · subst hq
    exact Nat.two_pow_pos _
  · exact (Nat.log2_lt hq).mp (by unfold scale; omega)

/-- The magnitude nearest to `num / den` units, a tie going to the even
significand; none where that would be 2^1024 or more. -/
def ofRatio? (num den : Nat) : Option Magnitude :=
  let k := scale (num / den)
  ofSignificand? (roundHalfEven num (den * Nat.pow 2 k)) k
    (Nat.le_trans (roundHalfEven_le _ _) (div_scale_lt num den))

/-- An exact multiple is its own rounding. -/
theorem roundHalfEven_mul {n den : Nat} (hden : 0 < den) : roundHalfEven (n * den) den = n := by
  unfold roundHalfEven
  have hq : n * den / den = n := Nat.mul_div_cancel n hden
  have hr : n * den % den = 0 := Nat.mul_mod_left n den
  simp only [hq, hr]
  rw [if_neg (by omega)]

/-- A magnitude is its own rounding, however the ratio is written. -/
theorem ofRatio?_mul (m : Magnitude) {den : Nat} (hden : 0 < den) :
    ofRatio? (m.units * den) den = some m := by
  obtain ⟨u, ⟨t, ht⟩, hlt⟩ := m
  have hq : u * den / den = u := Nat.mul_div_cancel u hden
  have hround : roundHalfEven (u * den) (den * Nat.pow 2 (scale u)) = t := by
    change roundHalfEven (u * den) (den * 2 ^ scale u) = t
    have hnum : u * den = t * (den * 2 ^ scale u) := by
      have hu : u = 2 ^ scale u * t := ht
      calc u * den = 2 ^ scale u * t * den := by rw [← hu]
        _ = t * (den * 2 ^ scale u) := by
          rw [Nat.mul_comm (2 ^ scale u) t, Nat.mul_assoc, Nat.mul_comm (2 ^ scale u) den]
    rw [hnum]
    exact roundHalfEven_mul (Nat.mul_pos hden (Nat.two_pow_pos _))
  have hback : t * Nat.pow 2 (scale u) = u := by
    rw [Nat.mul_comm]
    exact ht.symm
  simp only [ofRatio?, ofSignificand?, hq, hround, hback]
  rw [dif_pos hlt]

end Magnitude

end MetricFormula.Binary64
