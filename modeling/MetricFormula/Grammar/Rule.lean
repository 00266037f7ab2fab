/-
  Grammar/Rule: the rules of the formula grammar.

      main        = expression end-of-input
      expression  = term, then any number of `+` or `-` and a term
      term        = factor, then any number of `*` or `/` and a factor
      factor      = call | reference | constant | grouped
      call        = identifier `(` expression, then `,` expression ... `)`
      reference   = identifier, not followed by `(`
      grouped     = `(` expression `)`
      constant    = digits with an optional fraction and exponent
      identifier  = a letter, then letters, digits and underscores

  Blanks may stand between the parts of a rule, but not inside a constant or an
  identifier.
-/
set_option autoImplicit false

namespace MetricFormula.Grammar

/-- The rules by which a text can be matched. -/
inductive Rule where
  | main
  | expression
  | add
  | sub
  | term
  | mul
  | div
  | factor
  | grouped
  | call
  | reference
  | constant
  | exponent
  | identifier
  | blank
  | endOfInput
  deriving DecidableEq, Repr, Inhabited

namespace Rule

/-- The name under which messages speak of a rule. -/
def name : Rule → String
  | main => "main"
  | expression => "expression"
  | add => "add"
  | sub => "sub"
  | term => "term"
  | mul => "mul"
  | div => "div"
  | factor => "factor"
  | grouped => "grouped"
  | call => "application"
  | reference => "variable"
  | constant => "constant"
  | exponent => "exponent"
  | identifier => "identifier"
  | blank => "WHITESPACE"
  | endOfInput => "EOI"

/-- Every rule, in grammar order. -/
def all : List Rule :=
  [main, expression, add, sub, term, mul, div, factor, grouped, call, reference, constant,
    exponent, identifier, blank, endOfInput]

theorem mem_all (r : Rule) : r ∈ all := by
  cases r <;> decide

/-- The rule with a given name. -/
def ofName? (s : String) : Option Rule :=
  all.find? fun r => r.name == s

theorem ofName?_name (r : Rule) : ofName? r.name = some r := by
  cases r <;> decide

end Rule

end MetricFormula.Grammar
