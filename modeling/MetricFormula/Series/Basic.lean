/-
  Series/Basic: what formulas are evaluated over.

  A series has elementwise arithmetic, a constant for every number, sums of any
  number of terms, and a test for zeros.  An operation on series can fail only
  because their lengths differ.  Single numbers are the simplest series, and for
  them nothing fails.
-/
import MetricFormula.Series.ExactSum

set_option autoImplicit false

namespace MetricFormula

/-- Two series that were to be combined have different lengths. -/
structure LengthMismatch where
  left : Nat
  right : Nat
  deriving DecidableEq, Repr, Inhabited

/-- The wording of a mismatch. -/
def LengthMismatch.message (e : LengthMismatch) : String :=
  s!"series have different lengths ({e.left} and {e.right})"

/-- The operations that evaluation needs. -/
class Series (σ : Type) where
  /-- The series that holds one number everywhere. -/
  broadcast : Binary64 → σ
  add : σ → σ → Except LengthMismatch σ
  sub : σ → σ → Except LengthMismatch σ
  mul : σ → σ → Except LengthMismatch σ
  div : σ → σ → Except LengthMismatch σ
  /-- The sum of any number of terms, rounded once. -/
  sum : List σ → Except LengthMismatch σ
  /-- Whether a zero of either sign occurs. -/
  containsZero : σ → Bool

namespace Series

variable {σ : Type} [Series σ]

/-- The product of any number of factors, from one and left to right. -/
def product (factors : List σ) : Except LengthMismatch σ :=
  factors.foldlM mul (broadcast Binary64.one)

end Series

instance : Series Binary64 where
  broadcast x := x
  add x y := .ok (x + y)
  sub x y := .ok (x - y)
  mul x y := .ok (x * y)
  div x y := .ok (x / y)
  sum xs := .ok (exactSum xs)
  containsZero x := x.isZero

end MetricFormula
