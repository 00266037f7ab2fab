/-
  Binary64/Basic: binary64 numbers and their arithmetic.

  A number is a finite magnitude with a sign, an infinity, or not a number.  Zero
  has two signs.  There is one value that is not a number, so that two values are
  equal in the sense of `=` exactly if their encodings are the same; the numeric
  comparison, for which the zeros are equal and NaN differs from itself, is
  `numericEq`.

  An operation on finite numbers computes exactly on whole units and rounds once.
-/
import MetricFormula.Binary64.Magnitude

set_option autoImplicit false

namespace MetricFormula

/-- A binary64 number. -/
inductive Binary64 where
  | nan
  | infinity (negative : Bool)
  | finite (negative : Bool) (magnitude : Binary64.Magnitude)
  deriving DecidableEq, Inhabited

namespace Binary64

/-! ## Constants and classes -/

def zero : Binary64 := .finite false .zero

/-- A power of two, by the exponent that its units have. -/
def ofPower (k : Nat) (h : k < 1024 + unitPlaces) : Binary64 :=
  .finite false ⟨1 * Nat.pow 2 k, Magnitude.isRepresentable_of_le (by decide) (by
    rw [Nat.one_mul]
    exact two_pow_lt_limit h)⟩

def one : Binary64 := ofPower unitPlaces (by omega)

def two : Binary64 := ofPower (unitPlaces + 1) (by omega)

def isFinite : Binary64 → Bool
  | .finite _ _ => true
  | _ => false

/-- Zero of either sign. -/
def isZero : Binary64 → Bool
  | .finite _ m => m.units == 0
  | _ => false

/-- The number with its sign cleared. -/
def abs : Binary64 → Binary64
  | .nan => .nan
  | .infinity _ => .infinity false
  | .finite _ m => .finite false m

/-- The number with the other sign. -/
def neg : Binary64 → Binary64
  | .nan => .nan
  | .infinity s => .infinity (!s)
  | .finite s m => .finite (!s) m

/-! ## Rounding exact results -/

/-- A signed ratio of units, rounded; too large a ratio becomes an infinity. -/
def ofRatio (negative : Bool) (num den : Nat) : Binary64 :=
  match Magnitude.ofRatio? num den with
  | some m => .finite negative m
  | none => .infinity negative

/-- The units of a finite number with their sign. -/
def signedUnits (negative : Bool) (m : Magnitude) : Int :=
  if negative then -(m.units : Int) else m.units

/-- A whole number of units, rounded.  `zeroSign` is the sign of an exact zero. -/
def ofUnits (zeroSign : Bool) (z : Int) : Binary64 :=
  if z = 0 then .finite zeroSign .zero else ofRatio (z < 0) z.natAbs 1

/-! ## Arithmetic -/

/-- An exact sum of zero is negative only if both summands are negative. -/
def add : Binary64 → Binary64 → Binary64
  | .nan, _ => .nan
  | _, .nan => .nan
  | .infinity s, .infinity t => if s = t then .infinity s else .nan
  | .infinity s, .finite _ _ => .infinity s
  | .finite _ _, .infinity t => .infinity t
  | .finite s a, .finite t b => ofUnits (s && t) (signedUnits s a + signedUnits t b)

def sub (x y : Binary64) : Binary64 := x.add y.neg

/-- Zero times an infinity is not a number. -/
def mul : Binary64 → Binary64 → Binary64
  | .nan, _ => .nan
  | _, .nan => .nan
  | .infinity s, .infinity t => .infinity (s != t)
  | .infinity s, .finite t b => if b.units = 0 then .nan else .infinity (s != t)
  | .finite s a, .infinity t => if a.units = 0 then .nan else .infinity (s != t)
  | .finite s a, .finite t b => ofRatio (s != t) (a.units * b.units) unitsPerOne

/-- A zero divided by a zero and an infinity by an infinity are not numbers; any
other finite number divided by zero is an infinity. -/
def div : Binary64 → Binary64 → Binary64
  | .nan, _ => .nan
  | _, .nan => .nan
  | .infinity _, .infinity _ => .nan
  | .infinity s, .finite t _ => .infinity (s != t)
  | .finite s _, .infinity t => .finite (s != t) .zero
  | .finite s a, .finite t b =>
      if b.units = 0 then
        if a.units = 0 then .nan else .infinity (s != t)
      else ofRatio (s != t) (a.units * unitsPerOne) b.units

instance : Add Binary64 := ⟨add⟩
instance : Sub Binary64 := ⟨sub⟩
instance : Mul Binary64 := ⟨mul⟩
instance : Div Binary64 := ⟨div⟩
instance : Neg Binary64 := ⟨neg⟩

/-! ## Comparison -/

/-- Equality of values: the zeros are equal, and NaN differs from itself. -/
def numericEq : Binary64 → Binary64 → Bool
  | .infinity s, .infinity t => s == t
  | .finite s a, .finite t b => signedUnits s a == signedUnits t b
  | _, _ => false

/-- Order of values.  Nothing is below or above NaN. -/
def numericLt : Binary64 → Binary64 → Bool
  | .nan, _ => false
  | _, .nan => false
  | .infinity s, .infinity t => s && !t
  | .infinity s, .finite _ _ => s
  | .finite _ _, .infinity t => !t
  | .finite s a, .finite t b => signedUnits s a < signedUnits t b

theorem isZero_iff_numericEq (x : Binary64) : x.isZero = x.numericEq zero := by
  cases x with
  | nan => rfl
  | infinity s => rfl
  | finite s m =>
      rw [Bool.eq_iff_iff]
      cases s <;> simp [isZero, numericEq, zero, signedUnits, Magnitude.zero]

end Binary64

end MetricFormula
