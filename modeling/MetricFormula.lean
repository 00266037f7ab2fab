import MetricFormula.Span
import MetricFormula.Text.Bytes
import MetricFormula.Text.Blank
import MetricFormula.Grammar.Rule
import MetricFormula.Grammar.Matcher
import MetricFormula.Decimal.Numeral
import MetricFormula.Grammar.Lexeme
import MetricFormula.Grammar.Tree
import MetricFormula.Grammar.Formula
import MetricFormula.Binary64.Magnitude
import MetricFormula.Binary64.Basic
import MetricFormula.Binary64.Bits
import MetricFormula.Decimal.Basic
import MetricFormula.Decimal.Reader
import MetricFormula.Decimal.Shortest
import MetricFormula.Series.ExactSum
import MetricFormula.Series.Basic
import MetricFormula.Series.Column
import MetricFormula.NameSet
import MetricFormula.Fault
import MetricFormula.Nesting
import MetricFormula.Interpretation.Basic
import MetricFormula.Interpretation.Literal
import MetricFormula.Interpretation.Acceptance
import MetricFormula.Interpretation.Evaluation
import MetricFormula.Interpretation.Validation
import MetricFormula.Interpretation.Recording
import MetricFormula.Ast.Basic
import MetricFormula.Ast.Names
import MetricFormula.Ast.Printer
import MetricFormula.Policy.Basic
import MetricFormula.Formula
import MetricFormula.Wire.Basic
import MetricFormula.Wire.Formula
import MetricFormula.Json.Basic
import MetricFormula.Policy.Json
import MetricFormula.Text.CellWidth
import MetricFormula.Report.Line
import MetricFormula.Report.Style
import MetricFormula.Report.Render
import MetricFormula.Proofs.Binary64.Arithmetic
import MetricFormula.Proofs.ExactSum.TwoSum
import MetricFormula.Proofs.ExactSum.Partials
import MetricFormula.Proofs.ExactSum.Collapse
import MetricFormula.Proofs.ExactSum.Correct
import MetricFormula.Proofs.ExactSum.Order
import MetricFormula.Proofs.Decimal.Numeral
import MetricFormula.Proofs.Grammar.Complete
import MetricFormula.Proofs.Grammar.Sound
import MetricFormula.Proofs.Interpretation.Validation
import MetricFormula.Proofs.Nesting
import MetricFormula.Proofs.Sentences
import MetricFormula.Proofs.Ast.Printer
import MetricFormula.Proofs.ExactSum.Unbounded
import MetricFormula.Proofs.Interpretation.Outcome
import MetricFormula.Proofs.Series.Column
import MetricFormula.Proofs.Columns
import MetricFormula.Proofs.Grammar.Place
import MetricFormula.Proofs.Grammar.Reading
import MetricFormula.Proofs.Grammar.Progress
import MetricFormula.Proofs.Grammar.Passage
import MetricFormula.Proofs.Grammar.Leaves
import MetricFormula.Proofs.Grammar.Stuck
import MetricFormula.Proofs.Grammar.Frontier
import MetricFormula.Proofs.Grammar.Visible
import MetricFormula.Proofs.Grammar.Part
import MetricFormula.Proofs.Malformation
import MetricFormula.Proofs.Grammar.Construct
import MetricFormula.Proofs.Interpretation.Failure
import MetricFormula.Proofs.Rejection
import MetricFormula.Proofs.Agreement
import MetricFormula.Proofs.Grammar.Reference
import MetricFormula.Proofs.Interpretation.Account
import MetricFormula.Proofs.Variables
import MetricFormula.Proofs.Bindings
import MetricFormula.Proofs.Grammar.Level
import MetricFormula.Proofs.Interpretation.Level
import MetricFormula.Proofs.Recursion
import MetricFormula.Proofs.Interpretation.Term
import MetricFormula.Proofs.Binary64.Product
import MetricFormula.Proofs.Series.Sampling
import MetricFormula.Proofs.Division
import MetricFormula.Proofs.Interpretation.Origin
import MetricFormula.Proofs.Interpretation.Value
import MetricFormula.Proofs.Localisation
import MetricFormula.Proofs.CharacterOffsets
import MetricFormula.Proofs.Relevance
import MetricFormula.Proofs.Ast.Admitted
import MetricFormula.Proofs.WellFormedness
import MetricFormula.Proofs.Normalisation
import MetricFormula.Text.Slice
import MetricFormula.Interpretation.Outline
import MetricFormula.Proofs.Interpretation.Outline
import MetricFormula.Proofs.Faults
import MetricFormula.Proofs.Grammar.Substitution
import MetricFormula.Proofs.Substitution
import MetricFormula.Proofs.Series.Shape
import MetricFormula.Proofs.Shape
import MetricFormula.Proofs.Interpretation.Correspondence
import MetricFormula.Proofs.Interpretation.Trace
import MetricFormula.Proofs.FailFast
import MetricFormula.Proofs.Interpretation.Passing
import MetricFormula.Proofs.Interpretation.Conduct
import MetricFormula.Proofs.Protocol
import MetricFormula.Proofs.Binary64.Zero
import MetricFormula.Proofs.ExactSum.Zero
import MetricFormula.Proofs.Series.Zero
import MetricFormula.Proofs.ZeroSigns
import MetricFormula.Proofs.Binary64.Bits
import MetricFormula.Proofs.Wire.Basic
import MetricFormula.Proofs.Wire.Formula
import MetricFormula.Proofs.Grammar.Fork
import MetricFormula.Proofs.CallArguments
import MetricFormula.Proofs.Interpretation.Recorded
import MetricFormula.Proofs.Session
import MetricFormula.Proofs.ExactSum.Invariant
import MetricFormula.Proofs.Series.Mismatch
import MetricFormula.Proofs.Grammar.Enclosure
import MetricFormula.Proofs.Excess
import MetricFormula.Proofs.Json.Token
import MetricFormula.Proofs.Json.Value
import MetricFormula.Proofs.Policy.Entry
import MetricFormula.Proofs.Overlay
