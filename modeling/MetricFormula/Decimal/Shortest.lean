/-
  Decimal/Shortest: the shortest decimal that reads back as a given number.

  For 1, 2, ..., 17 digits the two neighbours of the number on the grid of that
  many digits are tried; the first grid with a neighbour that reads back wins.  If
  both neighbours read back, the nearer one is taken, and the upper one if they are
  equally near.  A number for which no grid had one would be written exactly, so
  that whatever is written reads back (`readsBack_shortest`).

  `Binary64.text` then lays the digits out: plainly, with a digit on each side of
  the point, for zero and from 1e-4 up to below 1e16; otherwise with one digit
  before the point and an exponent.
-/
import MetricFormula.Decimal.Basic

set_option autoImplicit false

namespace MetricFormula.Decimal

open MetricFormula.Binary64 (Magnitude unitPlaces unitsPerOne)

/-! ## Choosing the digits -/

/-- Whether a decimal reads back as a magnitude. -/
def ReadsBack (m : Magnitude) (d : Decimal) : Prop :=
  d.toBinary64 false = .finite false m

instance (m : Magnitude) (d : Decimal) : Decidable (ReadsBack m d) :=
  inferInstanceAs (Decidable (_ = _))

/-- The decimal value of a magnitude itself. -/
def exact (m : Magnitude) : Decimal := ⟨m.units * Nat.pow 5 unitPlaces, -unitPlaces⟩

/-- How many digits a magnitude has before the decimal point; for one below 1/10,
minus the number of zeros after the point. -/
def pointPosition (m : Magnitude) : Int :=
  (Nat.toDigits 10 (m.units * Nat.pow 10 400 / unitsPerOne)).length - 400

/-- A magnitude in units of `10 ^ exponent`, as a ratio of natural numbers. -/
def onGrid (m : Magnitude) (exponent : Int) : Nat × Nat :=
  if 0 ≤ exponent then (m.units, unitsPerOne * Nat.pow 10 exponent.toNat)
  else (m.units * Nat.pow 10 (-exponent).toNat, unitsPerOne)

/-- The largest decimal with `count` digits that does not exceed a magnitude. -/
def below (m : Magnitude) (count : Nat) : Decimal :=
  let exponent := pointPosition m - count
  let (num, den) := onGrid m exponent
  ⟨num / den, exponent⟩

/-- The decimal one step above `below`. -/
def above (m : Magnitude) (count : Nat) : Decimal :=
  ⟨(below m count).coefficient + 1, (below m count).exponent⟩

/-- Whether the decimal above a magnitude is at least as near as the one below. -/
def isNearerAbove (m : Magnitude) (count : Nat) : Bool :=
  let (num, den) := onGrid m (pointPosition m - count)
  den ≤ 2 * (num % den)

/-- The neighbour with `count` digits that reads back, if there is one. -/
def candidate? (m : Magnitude) (count : Nat) : Option Decimal :=
  if ReadsBack m (above m count) ∧ (¬ ReadsBack m (below m count) ∨ isNearerAbove m count) then
    some (above m count)
  else if ReadsBack m (below m count) then some (below m count)
  else none

/-- The shortest decimal that reads back. -/
def shortest (m : Magnitude) : Decimal :=
  ((List.range 17).findSome? fun i => candidate? m (i + 1)).getD (exact m)

theorem readsBack_of_candidate? {m : Magnitude} {count : Nat} {d : Decimal}
    (h : candidate? m count = some d) : ReadsBack m d := by
  unfold candidate? at h
  split at h
  · rename_i hc
    have hd : above m count = d := Option.some.inj h
    exact hd ▸ hc.1
  · split at h
    · rename_i hc
      have hd : below m count = d := Option.some.inj h
      exact hd ▸ hc
    · simp at h

theorem readsBack_exact (m : Magnitude) : ReadsBack m (exact m) := by
  have hnum : m.units * Nat.pow 5 unitPlaces * unitsPerOne = m.units * Nat.pow 10 unitPlaces := by
    rw [Nat.mul_assoc]
    exact congrArg (m.units * ·) (Nat.mul_pow 5 2 unitPlaces).symm
  have hden : 0 < Nat.pow 10 unitPlaces := Nat.pow_pos (by omega)
  have hexponent : (exact m).exponent = -(unitPlaces : Int) := rfl
  have hpos := Binary64.unitPlaces_pos
  have hneg : ¬ (0 : Int) ≤ (exact m).exponent := by omega
  have hplaces : (-(exact m).exponent).toNat = unitPlaces := by omega
  have hcoefficient : (exact m).coefficient = m.units * Nat.pow 5 unitPlaces := rfl
  unfold ReadsBack toBinary64
  rw [if_neg hneg, hplaces, hcoefficient, hnum, Binary64.ofRatio, Magnitude.ofRatio?_mul m hden]

/-- Whatever digits are chosen, they read back. -/
theorem readsBack_shortest (m : Magnitude) : ReadsBack m (shortest m) := by
  unfold shortest
  rcases h : (List.range 17).findSome? fun i => candidate? m (i + 1) with _ | d
  · exact readsBack_exact m
  · obtain ⟨i, _, hi⟩ := List.exists_of_findSome?_eq_some h
    exact readsBack_of_candidate? hi

/-! ## Writing the digits -/

/-- A run of digits without the zeros at its end. -/
def trimZeros (ds : List Char) : List Char :=
  (ds.reverse.dropWhile (· == '0')).reverse

/-- Digits with the point after the first `point` of them, padded with zeros so
that a digit stands on each side of it. -/
def plain (ds : List Char) (point : Int) : List Char :=
  if point ≤ 0 then '0' :: '.' :: List.replicate (-point).toNat '0' ++ ds
  else if (ds.length : Int) ≤ point then
    ds ++ List.replicate (point.toNat - ds.length) '0' ++ ['.', '0']
  else ds.take point.toNat ++ '.' :: ds.drop point.toNat

/-- An integer, with a sign only if it is negative. -/
def integer (z : Int) : List Char :=
  if z < 0 then '-' :: Nat.toDigits 10 z.natAbs else Nat.toDigits 10 z.natAbs

/-- Digits with the point after the first of them, if others follow, and an
exponent. -/
def scientific (ds : List Char) (point : Int) : List Char :=
  let mantissa :=
    match ds with
    | d :: e :: rest => d :: '.' :: e :: rest
    | short => short
  mantissa ++ 'e' :: integer (point - 1)

/-- A magnitude as it is written. -/
def text (m : Magnitude) : List Char :=
  if m.units = 0 then ['0', '.', '0']
  else
    let d := shortest m
    let all := Nat.toDigits 10 d.coefficient
    let point := all.length + d.exponent
    let ds := trimZeros all
    if -3 ≤ point ∧ point ≤ 16 then plain ds point else scientific ds point

end MetricFormula.Decimal

namespace MetricFormula.Binary64

/-- A number as it is written. -/
def text : Binary64 → List Char
  | .nan => "NaN".toList
  | .infinity true => "-inf".toList
  | .infinity false => "inf".toList
  | .finite true m => '-' :: Decimal.text m
  | .finite false m => Decimal.text m

end MetricFormula.Binary64
