/-
  Span: where a piece of a formula stands in its text.

  A span is a pair of byte offsets into the UTF-8 form of the text.  Spans that
  the grammar reports always have `start ≤ stop`; a span built by hand need not,
  and is then empty.
-/
set_option autoImplicit false

namespace MetricFormula

/-- A range of bytes of a formula's text: `start` is included, `stop` is not. -/
structure Span where
  start : Nat
  stop : Nat
  deriving DecidableEq, Repr, Inhabited

namespace Span

/-- The empty span at one offset. -/
def point (offset : Nat) : Span := ⟨offset, offset⟩

/-- A span is empty when no byte lies in it. -/
def isEmpty (s : Span) : Bool := s.stop ≤ s.start

end Span

end MetricFormula
