/-
  Fault: why a formula was not checked, validated or evaluated.

  A fault is a cause with its place.  The wording, the code under which a fault can
  be looked up, and the advice that goes with it are functions of the cause.
-/
import MetricFormula.Span
import MetricFormula.Text.Bytes
import MetricFormula.Text.Blank
import MetricFormula.Grammar.Rule
import MetricFormula.Decimal.Reader
import MetricFormula.Series.Basic

set_option autoImplicit false

namespace MetricFormula

open MetricFormula.Grammar

/-! ## What could have come next -/

/-- The classes of what the grammar would have accepted at a place. -/
structure Expectation where
  operand : Bool
  multiplicative : Bool
  additive : Bool
  finish : Bool
  deriving DecidableEq, Repr

namespace Expectation

/-- The classes that some rules belong to. -/
def ofRules (rules : List Rule) : Expectation where
  operand := rules.any fun r =>
    r == .expression || r == .term || r == .call || r == .reference || r == .constant
      || r == .identifier
  multiplicative := rules.any fun r => r == .mul || r == .div
  additive := rules.any fun r => r == .add || r == .sub
  finish := rules.any fun r => r == .endOfInput

/-- The wording of each class. -/
def alternatives (e : Expectation) : List String :=
  (if e.operand then ["a number, variable, function call or `(`"] else [])
    ++ (if e.multiplicative then ["`*` or `/`"] else [])
    ++ (if e.additive then ["`+` or `-`"] else [])
    ++ (if e.finish then ["end of input"] else [])

end Expectation

/-! ## Causes -/

/-- Why a text is not a formula. -/
inductive Malformation where
  /-- The grammar stops here: the next character, if there is one, and what would
  have been accepted. -/
  | unexpected (found : Option Char) (expected : Expectation)
  /-- Parentheses nest too deeply. -/
  | tooDeep (limit : Nat)
  /-- A numeral stands for no finite number. -/
  | outOfRange (literal : String)
  /-- A cause that is given in words. -/
  | stated (text : String)
  deriving DecidableEq, Repr

/-- The wording of a malformation. -/
def Malformation.message : Malformation → String
  | unexpected found expected =>
      let what :=
        match found with
        | some c => "unexpected `" ++ c.toString ++ "`"
        | none => "unexpected end of input"
      match expected.alternatives with
      | [] => what
      | alternatives => what ++ ", expected " ++ ", or ".intercalate alternatives
  | tooDeep limit => s!"formula nesting exceeds the maximum depth of {limit} levels"
  | outOfRange literal => "numeric literal `" ++ literal ++ "` is out of range"
  | stated text => text

/-- A failure that no formula can cause. -/
inductive Inconsistency where
  /-- A numeral that the grammar accepted cannot be read. -/
  | unreadable (literal : String) (cause : Decimal.ReadError)
  /-- A cause that is given in words. -/
  | stated (text : String)
  deriving DecidableEq, Repr

/-- The wording of an inconsistency. -/
def Inconsistency.message : Inconsistency → String
  | unreadable literal cause =>
      "numeric literal `" ++ literal ++ "` accepted by the grammar failed to parse: "
        ++ cause.message
  | stated text => text

/-- Why an operation on a formula failed. -/
inductive Fault where
  /-- The text is not a formula, or a number in it is out of range. -/
  | malformed (position : Nat) (reason : Malformation)
  /-- Validation met a call of a function that is not allowed. -/
  | unknownFunction (name : String) (span : Span)
  /-- Evaluation met a variable without a series. -/
  | unboundVariable (name : String) (span : Span)
  /-- The denominator of a term has a zero in it. -/
  | divisionByZero (span : Span)
  /-- Evaluation met a rule that it has no meaning for. -/
  | unsupported (rule : Rule) (span : Span)
  /-- Two series do not fit together. -/
  | series (cause : LengthMismatch)
  /-- Something is wrong that is not the formula's fault. -/
  | internal (cause : Inconsistency)
  deriving DecidableEq, Repr

namespace Fault

/-- The wording of a fault. -/
def message : Fault → String
  | malformed position reason => s!"syntax error at position {position}: " ++ reason.message
  | unknownFunction name _ => "unknown function `" ++ name ++ "`"
  | unboundVariable name _ => "unbound variable `" ++ name ++ "`"
  | divisionByZero _ => "division by zero"
  | unsupported rule _ => "evaluation does not support the " ++ rule.name ++ " rule"
  | series cause => cause.message
  | internal cause => "internal error: " ++ cause.message

/-- The place of a fault, if it has one. -/
def span? : Fault → Option Span
  | malformed position _ => some (Span.point position)
  | unknownFunction _ span => some span
  | unboundVariable _ span => some span
  | divisionByZero span => some span
  | unsupported _ span => some span
  | series _ => none
  | internal _ => none

/-- The code under which a fault can be looked up. -/
def code : Fault → String
  | internal _ => "F000"
  | malformed _ _ => "F001"
  | unknownFunction _ _ => "F002"
  | unboundVariable _ _ => "F003"
  | divisionByZero _ => "F004"
  | unsupported _ _ => "F005"
  | series _ => "F006"

/-- Advice on how to mend the formula. -/
def help : Fault → List String
  | unknownFunction _ _ => ["only whitelisted functions may be called"]
  | unboundVariable name _ => ["supply a series named `" ++ name ++ "`"]
  | divisionByZero _ => ["the denominator of this term evaluates to zero"]
  | unsupported .call _ => ["function calls can be validated but not evaluated"]
  | _ => []

end Fault

/-! ## Diagnostics -/

/-- A fault as it is shown to the author of a formula. -/
structure Diagnostic where
  message : String
  span : Span
  help : List String
  code : String
  deriving DecidableEq, Repr

/-- The diagnostic of a fault.  A malformation is worded without its position, which
the span shows; a fault without a place is shown at the start. -/
def Fault.diagnostic (f : Fault) : Diagnostic where
  message :=
    match f with
    | .malformed _ reason => reason.message
    | other => other.message
  span := f.span?.getD (Span.point 0)
  help := f.help
  code := f.code

/-! ## Failures of the grammar -/

/-- A failure beyond the text is placed where the text ends without its trailing
blanks. -/
def reportedPosition (source : List Char) (offset : Nat) : Nat :=
  if Text.byteLength source ≤ offset then Text.byteLength (Text.trimEnd source) else offset

/-- The fault of a text that matches no formula: `offset` is the furthest offset at
which a rule failed, and `expected` are the rules that failed there. -/
def Fault.ofFailure (source : String) (offset : Nat) (expected : List Rule) : Fault :=
  .malformed (reportedPosition source.toList offset)
    (.unexpected (Text.charAt? source.toList offset) (.ofRules expected))

/-- The fault of a failure that is given in words. -/
def Fault.ofStatement (source : String) (offset : Nat) (text : String) : Fault :=
  .malformed (reportedPosition source.toList offset) (.stated text)

end MetricFormula
