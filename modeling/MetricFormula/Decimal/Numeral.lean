/-
  Decimal/Numeral: decimal numerals as they are written.

  A numeral is digits with an optional point and further digits, with a digit on
  at least one side of the point, and then an optional exponent: the letter `e`
  in either case, an optional sign, and digits.

  `scan?` splits the longest numeral off the front of a text.  What it reads and
  what it leaves make up the text again (`text_append_of_scan?`).
-/
set_option autoImplicit false

namespace MetricFormula.Decimal

/-! ## Runs of digits -/

/-- All digits at the front of a text, of which there may be none, and the rest. -/
def digits (cs : List Char) : List Char × List Char :=
  (cs.takeWhile Char.isDigit, cs.dropWhile Char.isDigit)

/-- The digits at the front of a text that starts with a digit. -/
def digits? (cs : List Char) : Option (List Char × List Char) :=
  if (digits cs).1.isEmpty then none else some (digits cs)

@[simp] theorem digits_append (cs : List Char) : (digits cs).1 ++ (digits cs).2 = cs :=
  List.takeWhile_append_dropWhile

theorem digits?_append {cs read rest : List Char} (h : digits? cs = some (read, rest)) :
    read ++ rest = cs := by
  have happ := digits_append cs
  unfold digits? at h
  split at h
  · simp at h
  · simp only [Option.some.injEq] at h
    rw [h] at happ
    exact happ

theorem digits?_ne_nil {cs read rest : List Char} (h : digits? cs = some (read, rest)) :
    read ≠ [] := by
  unfold digits? at h
  split at h
  · simp at h
  · rename_i hne
    simp only [Option.some.injEq] at h
    rw [h] at hne
    simpa using hne

/-- An optional sign, and the rest. -/
def sign : List Char → List Char × List Char
  | '+' :: cs => (['+'], cs)
  | '-' :: cs => (['-'], cs)
  | cs => ([], cs)

@[simp] theorem sign_append (cs : List Char) : (sign cs).1 ++ (sign cs).2 = cs := by
  unfold sign
  split <;> rfl

/-! ## Numerals -/

/-- The exponent of a numeral: the letter, an optional sign, and digits. -/
structure Exponent where
  letter : Char
  sign : List Char
  digits : List Char
  deriving DecidableEq, Repr

/-- A decimal numeral.  `fraction` is what follows the point, if there is one. -/
structure Numeral where
  whole : List Char
  fraction : Option (List Char)
  exponent : Option Exponent
  deriving DecidableEq, Repr

namespace Exponent

/-- The exponent as it is written. -/
def text (x : Exponent) : List Char := x.letter :: x.sign ++ x.digits

/-- Splits an exponent off the front of a text. -/
def scan? : List Char → Option (Exponent × List Char)
  | [] => none
  | e :: cs =>
      if e == 'e' || e == 'E' then
        match digits? (Decimal.sign cs).2 with
        | some (ds, rest) => some (⟨e, (Decimal.sign cs).1, ds⟩, rest)
        | none => none
      else none

theorem text_append_of_scan? {cs rest : List Char} {x : Exponent}
    (h : scan? cs = some (x, rest)) : x.text ++ rest = cs := by
  cases cs with
  | nil => simp [scan?] at h
  | cons e cs =>
      simp only [scan?] at h
      split at h
      · split at h
        · rename_i ds tail hds
          simp only [Option.some.injEq, Prod.mk.injEq] at h
          have hcs := sign_append cs
          rw [← digits?_append hds] at hcs
          rw [← h.1, ← h.2]
          simpa [text] using hcs
        · simp at h
      · simp at h

/-- Splits an exponent off the front of a text, if one stands there. -/
def scan (cs : List Char) : Option Exponent × List Char :=
  match scan? cs with
  | some (x, rest) => (some x, rest)
  | none => (none, cs)

theorem text_append_of_scan (cs : List Char) :
    (scan cs).1.elim [] text ++ (scan cs).2 = cs := by
  unfold scan
  split
  · exact text_append_of_scan? ‹_›
  · rfl

end Exponent

namespace Numeral

/-- The numeral as it is written. -/
def text (n : Numeral) : List Char :=
  n.whole ++ (n.fraction.elim [] ('.' :: ·)) ++ (n.exponent.elim [] Exponent.text)

/-- Splits the point and the digits after it off the front of a text.  Where the
digits before the point are missing, one has to follow it. -/
def fraction? (whole : List Char) : List Char → Option (Option (List Char) × List Char)
  | '.' :: cs =>
      if whole.isEmpty && (digits cs).1.isEmpty then none
      else some (some (digits cs).1, (digits cs).2)
  | cs => if whole.isEmpty then none else some (none, cs)

/-- Splits the longest numeral off the front of a text. -/
def scan? (cs : List Char) : Option (Numeral × List Char) :=
  match fraction? (digits cs).1 (digits cs).2 with
  | some (fraction, tail) =>
      some (⟨(digits cs).1, fraction, (Exponent.scan tail).1⟩, (Exponent.scan tail).2)
  | none => none

theorem fraction?_append {whole cs rest : List Char} {fraction : Option (List Char)}
    (h : fraction? whole cs = some (fraction, rest)) :
    fraction.elim [] ('.' :: ·) ++ rest = cs := by
  unfold fraction? at h
  split at h
  · split at h
    · simp at h
    · simp only [Option.some.injEq, Prod.mk.injEq] at h
      rw [← h.1, ← h.2]
      simp
  · split at h
    · simp at h
    · simp only [Option.some.injEq, Prod.mk.injEq] at h
      rw [← h.1, ← h.2]
      simp

theorem text_append_of_scan? {cs rest : List Char} {n : Numeral}
    (h : scan? cs = some (n, rest)) : n.text ++ rest = cs := by
  unfold scan? at h
  split at h
  · rename_i fraction tail hf
    simp only [Option.some.injEq, Prod.mk.injEq] at h
    have hcs := digits_append cs
    have htail := Exponent.text_append_of_scan tail
    rw [← fraction?_append hf, ← htail] at hcs
    rw [← h.1, ← h.2]
    simpa [text] using hcs
  · simp at h

end Numeral

end MetricFormula.Decimal
