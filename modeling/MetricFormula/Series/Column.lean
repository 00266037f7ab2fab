/-
  Series/Column: columns of samples.

  A column is a scalar, which stands for itself at every index, or a list of
  values.  A scalar combines with a column of any length; two lists of values have
  to be equally long.
-/
import MetricFormula.Series.Basic

set_option autoImplicit false

namespace MetricFormula

/-- One number for every index, or a number for each. -/
inductive Column where
  | scalar (value : Binary64)
  | values (samples : List Binary64)
  deriving DecidableEq, Inhabited

namespace Column

/-- The number of samples; a scalar has none of its own. -/
def length? : Column → Option Nat
  | scalar _ => none
  | values xs => some xs.length

/-- A column of no samples. -/
def isEmpty (c : Column) : Bool := c.length? == some 0

/-- The sample at an index. -/
def get? : Column → Nat → Option Binary64
  | scalar x, _ => some x
  | values xs, i => xs[i]?

/-- The column of the given samples. -/
def ofList (xs : List Binary64) : Column := values xs

/-- Equality sample by sample, in the sense of numbers. -/
def numericEq : Column → Column → Bool
  | scalar x, scalar y => x.numericEq y
  | values xs, values ys => xs.length == ys.length && (xs.zip ys).all fun (x, y) => x.numericEq y
  | _, _ => false

/-- Combines two columns index by index. -/
def zipWith (op : Binary64 → Binary64 → Binary64) : Column → Column → Except LengthMismatch Column
  | scalar x, scalar y => .ok (scalar (op x y))
  | scalar x, values ys => .ok (values (ys.map fun y => op x y))
  | values xs, scalar y => .ok (values (xs.map fun x => op x y))
  | values xs, values ys =>
      if xs.length = ys.length then .ok (values (List.zipWith op xs ys))
      else .error ⟨xs.length, ys.length⟩

/-- The common length of the columns that have one, given that of the columns
before them. -/
def commonLengthFrom (common : Option Nat) : List Column → Except LengthMismatch (Option Nat)
  | [] => .ok common
  | c :: cs =>
      match common, c.length? with
      | _, none => commonLengthFrom common cs
      | none, some n => commonLengthFrom (some n) cs
      | some m, some n => if m = n then commonLengthFrom common cs else .error ⟨m, n⟩

/-- The common length of the columns that have one, if any has. -/
def commonLength (cs : List Column) : Except LengthMismatch (Option Nat) :=
  commonLengthFrom none cs

/-- The samples of several columns at an index. -/
def samplesAt (cs : List Column) (i : Nat) : List Binary64 :=
  cs.filterMap fun c => c.get? i

/-- Sums the columns index by index. -/
def sum (cs : List Column) : Except LengthMismatch Column := do
  match ← commonLength cs with
  | none => pure (scalar (exactSum (samplesAt cs 0)))
  | some n => pure (values ((List.range n).map fun i => exactSum (samplesAt cs i)))

/-- Whether a zero of either sign occurs. -/
def containsZero : Column → Bool
  | scalar x => x.isZero
  | values xs => xs.any Binary64.isZero

end Column

instance : Series Column where
  broadcast := .scalar
  add := Column.zipWith (· + ·)
  sub := Column.zipWith (· - ·)
  mul := Column.zipWith (· * ·)
  div := Column.zipWith (· / ·)
  sum := Column.sum
  containsZero := Column.containsZero

end MetricFormula
