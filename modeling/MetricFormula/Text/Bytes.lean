/-
  Text/Bytes: byte offsets into a text.

  A text is handled as its list of characters.  Offsets count the bytes of the
  UTF-8 form, so a character moves the offset by one to four.
-/
set_option autoImplicit false

namespace MetricFormula.Text

/-- The number of bytes of the UTF-8 form. -/
def byteLength (cs : List Char) : Nat :=
  cs.foldr (fun c n => c.utf8Size + n) 0

@[simp] theorem byteLength_nil : byteLength [] = 0 := rfl

@[simp] theorem byteLength_cons (c : Char) (cs : List Char) :
    byteLength (c :: cs) = c.utf8Size + byteLength cs := rfl

@[simp] theorem byteLength_append (cs ds : List Char) :
    byteLength (cs ++ ds) = byteLength cs + byteLength ds := by
  induction cs with
  | nil => simp
  | cons c cs ih => rw [List.cons_append, byteLength_cons, byteLength_cons, ih, Nat.add_assoc]

/-- The character that starts at a byte offset.  There is none at the end of the
text, past it, or inside a character. -/
def charAt? : List Char → Nat → Option Char
  | [], _ => none
  | c :: cs, offset =>
      if offset = 0 then some c
      else if offset < c.utf8Size then none
      else charAt? cs (offset - c.utf8Size)

@[simp] theorem charAt?_zero (c : Char) (cs : List Char) : charAt? (c :: cs) 0 = some c := by
  simp [charAt?]

theorem charAt?_append (cs : List Char) (c : Char) (ds : List Char) :
    charAt? (cs ++ c :: ds) (byteLength cs) = some c := by
  induction cs with
  | nil => simp
  | cons d cs ih =>
      have hd : 0 < d.utf8Size := d.utf8Size_pos
      simp only [List.cons_append, charAt?, byteLength_cons]
      rw [if_neg (by omega), if_neg (by omega), Nat.add_sub_cancel_left, ih]

/-- No character starts at the end of a text. -/
theorem charAt?_byteLength (cs : List Char) : charAt? cs (byteLength cs) = none := by
  induction cs with
  | nil => rfl
  | cons d cs ih =>
      have hd : 0 < d.utf8Size := d.utf8Size_pos
      rw [byteLength_cons, charAt?, if_neg (by omega), if_neg (by omega), Nat.add_sub_cancel_left,
        ih]

end MetricFormula.Text
