/-
  Ast/Printer: formulas as text.

  Added terms come before subtracted ones and multiplied factors before dividing
  ones, with a blank on each side of every operator.  Constants are written so that
  they read back.
-/
import MetricFormula.Ast.Basic
import MetricFormula.Decimal.Shortest

set_option autoImplicit false

namespace MetricFormula

/-- The parts of a list of texts, with a separator between them. -/
def joined (separator : List Char) : List (List Char) → List Char
  | [] => []
  | [t] => t
  | t :: ts => t ++ separator ++ joined separator ts

/-- Two lists of texts: the first joined by one separator, and the second, if it
is not empty, led in and joined by another. -/
def twoSided (plus minus : List Char) (positive negative : List (List Char)) : List Char :=
  joined plus positive ++ (if negative.isEmpty then [] else minus ++ joined minus negative)

mutual

def Sum.text : Sum → List Char
  | .mk positive negative =>
      twoSided [' ', '+', ' '] [' ', '-', ' '] (Product.texts positive) (Product.texts negative)

def Product.texts : List Product → List (List Char)
  | [] => []
  | p :: ps => p.text :: Product.texts ps

def Product.text : Product → List Char
  | .mk numerator denominator =>
      twoSided [' ', '*', ' '] [' ', '/', ' '] (Factor.texts numerator) (Factor.texts denominator)

def Factor.texts : List Factor → List (List Char)
  | [] => []
  | x :: xs => x.text :: Factor.texts xs

def Factor.text : Factor → List Char
  | .variable name => name.toList
  | .constant value => value.text
  | .group inner => '(' :: inner.text ++ [')']
  | .call function arguments =>
      function.toList ++ '(' :: joined [',', ' '] (Sum.texts arguments) ++ [')']

def Sum.texts : List Sum → List (List Char)
  | [] => []
  | s :: ss => s.text :: Sum.texts ss

end

/-- The text of a sum. -/
def Sum.display (s : Sum) : String := String.ofList s.text

end MetricFormula
