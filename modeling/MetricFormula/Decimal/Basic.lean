/-
  Decimal/Basic: exact decimal values, and the binary64 numbers nearest to them.
-/
import MetricFormula.Binary64.Basic
import MetricFormula.Decimal.Numeral

set_option autoImplicit false

namespace MetricFormula

/-- The exact value `coefficient * 10 ^ exponent`. -/
structure Decimal where
  coefficient : Nat
  exponent : Int
  deriving DecidableEq, Repr

namespace Decimal

open Binary64 (unitsPerOne)

/-- The binary64 number nearest to a decimal value with a given sign. -/
def toBinary64 (negative : Bool) (d : Decimal) : Binary64 :=
  if 0 ≤ d.exponent then
    .ofRatio negative (d.coefficient * Nat.pow 10 d.exponent.toNat * unitsPerOne) 1
  else
    .ofRatio negative (d.coefficient * unitsPerOne) (Nat.pow 10 (-d.exponent).toNat)

/-! ## Values of numerals -/

/-- The value of a run of digits. -/
def natural (ds : List Char) : Nat := Nat.ofDigitChars 10 ds 0

/-- The size of a written exponent.  Once it has reached 65536, further digits do
not change it; no text of that many digits is needed to write a finite number. -/
def Exponent.size (x : Exponent) : Nat :=
  x.digits.foldl (fun n c => if n < 65536 then 10 * n + (c.toNat - '0'.toNat) else n) 0

/-- The value of a written exponent. -/
def Exponent.value (x : Exponent) : Int :=
  if x.sign = ['-'] then -(x.size : Int) else x.size

/-- The value of a numeral: its digits without the point, scaled back by the number
of digits after the point. -/
def Numeral.value (n : Numeral) : Decimal where
  coefficient := natural (n.whole ++ n.fraction.getD [])
  exponent := n.exponent.elim 0 Exponent.value - (n.fraction.getD []).length

end Decimal

end MetricFormula
