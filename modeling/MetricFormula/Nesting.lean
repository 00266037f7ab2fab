/-
  Nesting: how deeply parentheses nest.

  Formulas nest through parentheses and arguments, and both open with the same
  character, so one look over the text bounds the depth of every tree that the
  grammar can make of it, before any tree is made.
-/
import MetricFormula.Fault

set_option autoImplicit false

namespace MetricFormula.Nesting

/-- The offset just past the first opening parenthesis that makes more than
`limit` levels, where the text outside all parentheses is the first level and
`depth` parentheses are open already.  A closing parenthesis without an opening one
does not count. -/
def excess? (limit : Nat) : (depth offset : Nat) → List Char → Option Nat
  | _, _, [] => none
  | depth, offset, c :: cs =>
      if c = '(' then
        if limit ≤ depth + 1 then some (offset + 1)
        else excess? limit (depth + 1) (offset + c.utf8Size) cs
      else if c = ')' then excess? limit (depth - 1) (offset + c.utf8Size) cs
      else excess? limit depth (offset + c.utf8Size) cs

/-- Refuses a text whose parentheses nest too deeply. -/
def check (limit : Nat) (source : String) : Except Fault Unit :=
  match excess? limit 0 0 source.toList with
  | some position => .error (.malformed position (.tooDeep limit))
  | none => .ok ()

end MetricFormula.Nesting
