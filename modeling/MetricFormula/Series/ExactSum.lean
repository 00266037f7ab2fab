/-
  Series/ExactSum: sums of binary64 numbers that are rounded once.

  The running sum is kept as a list of PARTIALS, least magnitude first, whose exact
  sum is the exact sum of the finite numbers read so far.  A new number is carried
  through the list: at each partial the two are added, what the rounding of that
  addition lost stays behind as a new partial, and the rounded sum is carried on.
  At the end the partials are added from the greatest down until a rounding loses
  something, and the last bit is settled by the sign of what lies below.

  Numbers that are not finite are summed apart, and their sum is the answer if
  there are any.  A carried sum that overflows counts among them.
-/
import MetricFormula.Binary64.Basic

set_option autoImplicit false

namespace MetricFormula

/-- A running sum: the partials, least magnitude first, and the sum of what was not
finite, if anything was not. -/
structure ExactSum where
  partials : List Binary64
  special : Option Binary64
  deriving DecidableEq, Inhabited

namespace ExactSum

/-- The sum of nothing. -/
def empty : ExactSum := ⟨[], none⟩

/-! ## Adding a number -/

/-- The rounded sum of two numbers and what the rounding lost, computed with the
greater magnitude first. -/
def twoSum (x y : Binary64) : Binary64 × Binary64 :=
  let (large, small) := if x.abs.numericLt y.abs then (y, x) else (x, y)
  let high := large + small
  (high, small - (high - large))

/-- Carries a number through the partials: the partials that stay behind, and the
carried sum. -/
def carry (x : Binary64) : List Binary64 → List Binary64 × Binary64
  | [] => ([], x)
  | y :: ys =>
      let (high, low) := twoSum x y
      let (kept, top) := carry high ys
      (if low.isZero then kept else low :: kept, top)

/-- Adds to what is not finite. -/
def addSpecial (s : ExactSum) (x : Binary64) : ExactSum :=
  { s with special := some (s.special.getD .zero + x) }

/-- Adds a finite number. -/
def addFinite (s : ExactSum) (x : Binary64) : ExactSum :=
  let (kept, top) := carry x s.partials
  if !top.isFinite then addSpecial { s with partials := kept } top
  else if top.isZero then { s with partials := kept }
  else { s with partials := kept ++ [top] }

/-- Adds a number. -/
def insert (s : ExactSum) (x : Binary64) : ExactSum :=
  if x.isFinite then s.addFinite x else s.addSpecial x

/-- The running sum of numbers in the order of the list. -/
def ofList (xs : List Binary64) : ExactSum :=
  xs.foldl insert empty

/-! ## Reading the sum off -/

/-- Both numbers are below zero, or both above. -/
def sameSide (x y : Binary64) : Bool :=
  (x.numericLt .zero && y.numericLt .zero) ||
    (Binary64.zero.numericLt x && Binary64.zero.numericLt y)

/-- Settles the last bit of a rounded sum: if what was lost, `low`, is exactly half
of the last place, and the next partial pushes it further the same way, the sum
moves by that place. -/
def settle (high low : Binary64) (next : Option Binary64) : Binary64 :=
  match next with
  | none => high
  | some z =>
      if sameSide low z then
        let twice := low * .two
        let moved := high + twice
        if twice.numericEq (moved - high) then moved else high
      else high

/-- Adds partials, the greatest first, until a rounding loses something. -/
def collapse (high : Binary64) : List Binary64 → Binary64
  | [] => high
  | y :: ys =>
      let sum := high + y
      let low := y - (sum - high)
      if low.isZero then collapse sum ys else settle sum low ys.head?

/-- The sum of the partials, rounded. -/
def roundPartials (partials : List Binary64) : Binary64 :=
  match partials.reverse with
  | [] => .zero
  | top :: lower => collapse top lower

/-- The sum as a number. -/
def toBinary64 (s : ExactSum) : Binary64 :=
  s.special.getD (roundPartials s.partials)

end ExactSum

/-- The sum of binary64 numbers, rounded once. -/
def exactSum (xs : List Binary64) : Binary64 :=
  (ExactSum.ofList xs).toBinary64

end MetricFormula
