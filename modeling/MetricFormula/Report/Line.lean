/-
  Report/Line: the lines of a text.

  A line keeps the characters that end it.  The lines of a text, one after the
  other, make up the text (`flatten_segments`).
-/
set_option autoImplicit false

namespace MetricFormula.Report

/-- A line and the number of characters before it. -/
structure Line where
  offset : Nat
  text : List Char
  deriving DecidableEq, Repr, Inhabited

/-- The characters that end a line: line feed, vertical tab, form feed, carriage
return, next line, line separator and paragraph separator. -/
def isTerminator (c : Char) : Bool :=
  let n := c.toNat
  (0x0A ≤ n && n ≤ 0x0D) || n == 0x85 || n == 0x2028 || n == 0x2029

/-- Whether a line ends with a character that is followed by `next`.  A carriage
return does not end it before a line feed. -/
def endsLine (c : Char) (next : List Char) : Bool :=
  isTerminator c && !(c == '\r' && next.head? == some '\n')

/-- The texts of the lines. -/
def segments : List Char → List (List Char)
  | [] => []
  | c :: cs =>
      if endsLine c cs then [c] :: segments cs
      else
        match segments cs with
        | [] => [[c]]
        | l :: ls => (c :: l) :: ls

theorem flatten_segments (cs : List Char) : (segments cs).flatten = cs := by
  induction cs with
  | nil => rfl
  | cons c cs ih =>
      simp only [segments]
      split
      · simp [ih]
      · split
        · rename_i heq
          rw [heq] at ih
          simp [← ih]
        · rename_i heq
          rw [heq] at ih
          simp only [List.flatten_cons, List.cons_append]
          rw [← List.flatten_cons, ih]

/-- Lines from their texts and the offset of the first one. -/
def place : Nat → List (List Char) → List Line
  | _, [] => []
  | offset, t :: ts => ⟨offset, t⟩ :: place (offset + t.length) ts

/-- The lines of a text.  The empty text is one empty line; no line starts after a
terminator at the end. -/
def lines (cs : List Char) : List Line :=
  if cs.isEmpty then [⟨0, []⟩] else place 0 (segments cs)

/-- The number of the last line that starts at or before a place; lines are counted
from zero. -/
def lineAt (ls : List Line) (offset : Nat) : Nat :=
  (ls.filter fun l => l.offset ≤ offset).length - 1

end MetricFormula.Report
