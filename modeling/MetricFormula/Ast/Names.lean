/-
  Ast/Names: the variables that occur in a formula.
-/
import MetricFormula.Ast.Basic
import MetricFormula.NameSet

set_option autoImplicit false

namespace MetricFormula

mutual

/-- The variables of a sum, in the order in which they occur, positive products
first. -/
def Sum.names : Sum → List String
  | .mk positive negative => Product.namesOf positive ++ Product.namesOf negative

/-- The variables of products in a row. -/
def Product.namesOf : List Product → List String
  | [] => []
  | p :: ps => p.names ++ Product.namesOf ps

/-- The variables of a product. -/
def Product.names : Product → List String
  | .mk numerator denominator => Factor.namesOf numerator ++ Factor.namesOf denominator

/-- The variables of factors in a row. -/
def Factor.namesOf : List Factor → List String
  | [] => []
  | x :: xs => x.names ++ Factor.namesOf xs

/-- The variables of a factor.  The name of a function is not among them. -/
def Factor.names : Factor → List String
  | .variable name => [name]
  | .constant _ => []
  | .group inner => inner.names
  | .call _ arguments => Sum.namesOf arguments

/-- The variables of sums in a row. -/
def Sum.namesOf : List Sum → List String
  | [] => []
  | s :: ss => s.names ++ Sum.namesOf ss

end

/-- The set of the variables of a sum. -/
def Sum.variables (s : Sum) : NameSet := .ofList s.names

theorem Sum.mem_variables {x : String} {s : Sum} : x ∈ s.variables ↔ x ∈ s.names :=
  NameSet.mem_ofList

end MetricFormula
