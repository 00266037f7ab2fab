/-
  Binary64/Bits: the interchange encoding of binary64.

  From the top: one bit of sign, eleven of exponent, fifty-two of fraction.  An
  exponent field of 0 holds zero and the subnormal magnitudes, one of 2047 the
  infinities (fraction 0) and NaN (any other fraction).
-/
import MetricFormula.Binary64.Basic

set_option autoImplicit false

namespace MetricFormula.Binary64

/-- The number of values of the fraction field, which is also the least significand
of a magnitude that is not subnormal: 2^52. -/
def fractions : Nat := 0x10000000000000

/-- The weight of the sign bit: 2^63. -/
def signWeight : Nat := 0x8000000000000000

/-- The magnitude with given exponent and fraction fields. -/
def magnitudeOfFields (exponent fraction : Nat) (he : exponent < 2047) (hf : fraction < fractions) :
    Magnitude :=
  if exponent = 0 then
    ⟨fraction * Nat.pow 2 0, by
      change fraction < 2 ^ 52 at hf
      have hle : 2 ^ 52 ≤ 2 ^ 53 := Nat.pow_le_pow_right (by omega) (by omega)
      refine Magnitude.isRepresentable_of_le (Nat.le_trans (Nat.le_of_lt hf) hle) ?_
      change fraction * 1 < limit
      rw [Nat.mul_one]
      exact Nat.lt_trans hf (two_pow_lt_limit (by unfold unitPlaces; omega))⟩
  else
    ⟨(fractions + fraction) * Nat.pow 2 (exponent - 1), by
      change fraction < 2 ^ 52 at hf
      have hlt : fractions + fraction < 2 ^ 53 := by
        unfold fractions
        omega
      refine Magnitude.isRepresentable_of_le (Nat.le_of_lt hlt) ?_
      calc (fractions + fraction) * 2 ^ (exponent - 1)
          < 2 ^ 53 * 2 ^ (exponent - 1) := Nat.mul_lt_mul_of_pos_right hlt (Nat.two_pow_pos _)
        _ = 2 ^ (53 + (exponent - 1)) := (Nat.pow_add 2 53 (exponent - 1)).symm
        _ ≤ limit := two_pow_le_limit (by unfold unitPlaces; omega)⟩

/-- The number that a word of 64 bits encodes. -/
def ofBits (word : UInt64) : Binary64 :=
  let n := word.toNat
  let negative := n / signWeight == 1
  let exponent := n / fractions % 2048
  let fraction := n % fractions
  if h : exponent < 2047 then
    .finite negative (magnitudeOfFields exponent fraction h (Nat.mod_lt _ (by decide)))
  else if fraction = 0 then .infinity negative
  else .nan

/-- The exponent and fraction fields of a magnitude, as one number. -/
def magnitudeBits (m : Magnitude) : Nat :=
  if m.units < fractions then m.units
  else (m.units.log2 - 51) * fractions + (m.units / Nat.pow 2 (m.units.log2 - 52) - fractions)

/-- The sign bit. -/
def signBit (negative : Bool) : Nat := if negative then signWeight else 0

/-- The word that encodes a number.  NaN is encoded as the positive quiet one
without a payload. -/
def toBits : Binary64 → UInt64
  | .nan => 0x7ff8000000000000
  | .infinity s => UInt64.ofNat (signBit s + 2047 * fractions)
  | .finite s m => UInt64.ofNat (signBit s + magnitudeBits m)

end MetricFormula.Binary64
