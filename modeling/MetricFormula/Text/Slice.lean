/-
  Text/Slice: the piece of a text between two byte offsets.

  Offsets that the grammar reports stand between characters.  A character that an offset
  stands inside is read by neither side.
-/
import MetricFormula.Span
import MetricFormula.Text.Bytes

set_option autoImplicit false

namespace MetricFormula

namespace Text

/-- What stands after a number of bytes. -/
def dropBytes : Nat → List Char → List Char
  | 0, cs => cs
  | _ + 1, [] => []
  | n + 1, c :: cs => dropBytes (n + 1 - c.utf8Size) cs

/-- The characters that end within a number of bytes. -/
def takeBytes : Nat → List Char → List Char
  | 0, _ => []
  | _ + 1, [] => []
  | n + 1, c :: cs =>
      if c.utf8Size ≤ n + 1 then c :: takeBytes (n + 1 - c.utf8Size) cs else []

@[simp] theorem dropBytes_append (cs ds : List Char) :
    dropBytes (byteLength cs) (cs ++ ds) = ds := by
  induction cs with
  | nil =>
      cases ds with
      | nil => rfl
      | cons d ds => rfl
  | cons c cs ih =>
      obtain ⟨n, hn⟩ := Nat.exists_eq_succ_of_ne_zero (Nat.ne_of_gt c.utf8Size_pos)
      rw [List.cons_append, byteLength_cons, hn, Nat.succ_add, dropBytes, hn]
      rw [show n + byteLength cs + 1 - n.succ = byteLength cs by omega, ih]

@[simp] theorem takeBytes_append (cs ds : List Char) :
    takeBytes (byteLength cs) (cs ++ ds) = cs := by
  induction cs with
  | nil =>
      cases ds with
      | nil => rfl
      | cons d ds => rfl
  | cons c cs ih =>
      obtain ⟨n, hn⟩ := Nat.exists_eq_succ_of_ne_zero (Nat.ne_of_gt c.utf8Size_pos)
      rw [List.cons_append, byteLength_cons, hn, Nat.succ_add, takeBytes, hn, if_pos (by omega)]
      rw [show n + byteLength cs + 1 - n.succ = byteLength cs by omega, ih]

end Text

/-- The piece of a text at a span. -/
def Span.read (span : Span) (source : String) : String :=
  .ofList (Text.takeBytes (span.stop - span.start) (Text.dropBytes span.start source.toList))

end MetricFormula
