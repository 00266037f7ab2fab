/-
  Ast/Basic: formulas as values, without their text.

  A sum holds the products that are added and those that are subtracted; a product
  holds the factors that multiply and those that divide.  The order between the two
  lists is not kept.
-/
import MetricFormula.Binary64.Basic

set_option autoImplicit false

namespace MetricFormula

mutual

/-- Products that are added, and products that are subtracted. -/
inductive Sum where
  | mk (positive negative : List Product)

/-- Factors that multiply, and factors that divide. -/
inductive Product where
  | mk (numerator denominator : List Factor)

/-- A variable, a constant, a sum in parentheses, or a call of a function. -/
inductive Factor where
  | variable (name : String)
  | constant (value : Binary64)
  | group (inner : Sum)
  | call (function : String) (arguments : List Sum)

end

instance : Inhabited Sum := ⟨.mk [] []⟩

instance : Inhabited Product := ⟨.mk [] []⟩

namespace Sum

def positive : Sum → List Product
  | mk positive _ => positive

def negative : Sum → List Product
  | mk _ negative => negative

end Sum

namespace Product

def numerator : Product → List Factor
  | mk numerator _ => numerator

def denominator : Product → List Factor
  | mk _ denominator => denominator

end Product

/-! ## Equality of values

Two formulas are equal if they have the same shape and names and numerically equal
constants: the zeros are equal, and NaN differs from itself. -/

mutual

def Sum.numericEq : Sum → Sum → Bool
  | .mk p n, .mk p' n' => Product.numericEqs p p' && Product.numericEqs n n'

def Product.numericEqs : List Product → List Product → Bool
  | [], [] => true
  | x :: xs, y :: ys => x.numericEq y && Product.numericEqs xs ys
  | _, _ => false

def Product.numericEq : Product → Product → Bool
  | .mk n d, .mk n' d' => Factor.numericEqs n n' && Factor.numericEqs d d'

def Factor.numericEqs : List Factor → List Factor → Bool
  | [], [] => true
  | x :: xs, y :: ys => x.numericEq y && Factor.numericEqs xs ys
  | _, _ => false

def Factor.numericEq : Factor → Factor → Bool
  | .variable x, .variable y => x == y
  | .constant x, .constant y => x.numericEq y
  | .group x, .group y => x.numericEq y
  | .call f xs, .call g ys => f == g && Sum.numericEqs xs ys
  | _, _ => false

def Sum.numericEqs : List Sum → List Sum → Bool
  | [], [] => true
  | x :: xs, y :: ys => x.numericEq y && Sum.numericEqs xs ys
  | _, _ => false

end

end MetricFormula
