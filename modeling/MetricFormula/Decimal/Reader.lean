/-
  Decimal/Reader: reading a binary64 number from a text.

  The text is an optional sign and then a numeral, `inf` or `infinity`, or `nan`;
  the words may be written in any case.  Nothing may stand before or after.
-/
import MetricFormula.Decimal.Basic

set_option autoImplicit false

namespace MetricFormula.Decimal

/-- Why a text is not a number. -/
inductive ReadError where
  | empty
  | invalid
  deriving DecidableEq, Repr

/-- The wording of a reading error. -/
def ReadError.message : ReadError → String
  | empty => "cannot parse float from empty string"
  | invalid => "invalid float literal"

/-- The words for numbers that have no digits. -/
def word? (negative : Bool) (cs : List Char) : Option Binary64 :=
  let lower := cs.map Char.toLower
  if lower = "inf".toList ∨ lower = "infinity".toList then some (.infinity negative)
  else if lower = "nan".toList then some .nan
  else none

/-- Reads a text without a sign. -/
def readUnsigned (negative : Bool) (cs : List Char) : Except ReadError Binary64 :=
  match Numeral.scan? cs with
  | some (n, []) => .ok (n.value.toBinary64 negative)
  | _ =>
      match word? negative cs with
      | some x => .ok x
      | none => .error .invalid

/-- Reads a number. -/
def read (s : String) : Except ReadError Binary64 :=
  if s.isEmpty then .error .empty
  else readUnsigned ((sign s.toList).1 = ['-']) (sign s.toList).2

end MetricFormula.Decimal
