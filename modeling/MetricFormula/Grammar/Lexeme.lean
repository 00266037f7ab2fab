/-
  Grammar/Lexeme: the words of a formula.

  A scanner splits a word off the front of a text, or answers nothing.  What it
  splits off and what it leaves make up the text again.
-/
import MetricFormula.Span
import MetricFormula.Decimal.Numeral

set_option autoImplicit false

namespace MetricFormula.Grammar

/-- A word as it is written, and where it stands. -/
structure Lexeme where
  text : String
  span : Span
  deriving DecidableEq, Repr, Inhabited

namespace Scan

/-- The blanks that may stand between the parts of a rule: space, tab, carriage
return and line feed. -/
def isGap (c : Char) : Bool := c == ' ' || c == '\t' || c == '\r' || c == '\n'

/-- What may follow the first letter of an identifier: ASCII letters, digits and
the underscore. -/
def isNameChar (c : Char) : Bool := c.isAlphanum || c == '_'

/-- An identifier is an ASCII letter and all letters, digits and underscores
after it. -/
def identifier : List Char → Option (List Char × List Char)
  | [] => none
  | c :: cs =>
      if c.isAlpha then some (c :: cs.takeWhile isNameChar, cs.dropWhile isNameChar) else none

/-- A constant is the longest numeral. -/
def constant (cs : List Char) : Option (List Char × List Char) :=
  match Decimal.Numeral.scan? cs with
  | some (n, rest) => some (n.text, rest)
  | none => none

theorem identifier_append {cs read rest : List Char} (h : identifier cs = some (read, rest)) :
    read ++ rest = cs := by
  cases cs with
  | nil => simp [identifier] at h
  | cons c cs =>
      simp only [identifier] at h
      split at h
      · simp only [Option.some.injEq, Prod.mk.injEq] at h
        rw [← h.1, ← h.2, List.cons_append, List.takeWhile_append_dropWhile]
      · simp at h

theorem constant_append {cs read rest : List Char} (h : constant cs = some (read, rest)) :
    read ++ rest = cs := by
  unfold constant at h
  split at h
  · rename_i n tail hn
    simp only [Option.some.injEq, Prod.mk.injEq] at h
    rw [← h.1, ← h.2]
    exact Decimal.Numeral.text_append_of_scan? hn
  · simp at h

end Scan

end MetricFormula.Grammar
