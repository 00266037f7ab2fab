/-
  Json/Basic: reading the tokens of a JSON text.

  A reader takes a token off the front of the text and hands the rest back, or
  names the first problem it meets.  A text that ends inside a token is too short;
  anything else that is no token is not JSON.

  Values that are passed over are checked less closely: the surrogates in their
  strings need not come in pairs, and a numeral that ends with the text is not JSON
  rather than too short.
-/
import MetricFormula.Text.Bytes
import MetricFormula.Decimal.Basic

set_option autoImplicit false

namespace MetricFormula.Json

/-- What is wrong with a text. -/
inductive Problem where
  /-- The text is not JSON. -/
  | notJson
  /-- The text is JSON, but not of the shape that is asked for. -/
  | wrongShape
  /-- The text ends too early. -/
  | tooShort
  deriving DecidableEq, Repr

/-- A reader: what stands at the front of the text, and the rest. -/
abbrev Step (α : Type) : Type := List Char → Except Problem (α × List Char)

/-! ## Blanks and words -/

/-- Space, line feed, tab and carriage return. -/
def isBlank (c : Char) : Bool := c == ' ' || c == '\n' || c == '\t' || c == '\r'

def skipBlanks (cs : List Char) : List Char := cs.dropWhile isBlank

/-- Reads given characters. -/
def word : List Char → Step Unit
  | [], cs => .ok ((), cs)
  | _ :: _, [] => .error .tooShort
  | w :: ws, c :: cs => if c = w then word ws cs else .error .notJson

/-! ## Strings -/

/-- The value of a hexadecimal digit in either case. -/
def hexValue? (c : Char) : Option Nat :=
  if '0' ≤ c ∧ c ≤ '9' then some (c.toNat - '0'.toNat)
  else if 'a' ≤ c ∧ c ≤ 'f' then some (c.toNat - 'a'.toNat + 10)
  else if 'A' ≤ c ∧ c ≤ 'F' then some (c.toNat - 'A'.toNat + 10)
  else none

/-- Reads four hexadecimal digits.  The text is too short for them if fewer than
four bytes are left. -/
def fourHex : Step Nat
  | a :: b :: c :: d :: rest =>
      match hexValue? a, hexValue? b, hexValue? c, hexValue? d with
      | some w, some x, some y, some z => .ok (((w * 16 + x) * 16 + y) * 16 + z, rest)
      | _, _, _, _ => .error .notJson
  | short => .error (if Text.byteLength short < 4 then .tooShort else .notJson)

/-- The characters that a backslash and one letter stand for. -/
def shortEscape? (c : Char) : Option Char :=
  match c with
  | '"' => some '"'
  | '\\' => some '\\'
  | '/' => some '/'
  | 'b' => some '\x08'
  | 'f' => some '\x0c'
  | 'n' => some '\n'
  | 'r' => some '\r'
  | 't' => some '\t'
  | _ => none

def isLeadingSurrogate (n : Nat) : Bool := 0xD800 ≤ n && n < 0xDC00

def isTrailingSurrogate (n : Nat) : Bool := 0xDC00 ≤ n && n < 0xE000

/-- Reads the second half of a surrogate pair. -/
def trailingSurrogate (lead : Nat) : Step Char
  | [] => .error .tooShort
  | ['\\'] => .error .tooShort
  | '\\' :: 'u' :: cs => do
      let (n, rest) ← fourHex cs
      if isTrailingSurrogate n then
        pure (Char.ofNat (0x10000 + (lead - 0xD800) * 0x400 + (n - 0xDC00)), rest)
      else throw .notJson
  | _ => .error .notJson

/-- Reads the digits of a character that is written by its number. -/
def numberedChar : Step Char := fun cs => do
  let (n, rest) ← fourHex cs
  if isTrailingSurrogate n then throw .notJson
  else if isLeadingSurrogate n then trailingSurrogate n rest
  else pure (Char.ofNat n, rest)

/-- Reads what follows a backslash. -/
def escape : Step Char
  | [] => .error .tooShort
  | c :: cs =>
      match shortEscape? c with
      | some d => .ok (d, cs)
      | none => if c = 'u' then numberedChar cs else .error .notJson

/-- Reads what follows a backslash in a string that is passed over. -/
def skipEscape : Step Unit
  | [] => .error .tooShort
  | c :: cs =>
      match shortEscape? c with
      | some _ => .ok ((), cs)
      | none =>
          if c = 'u' then do
            let (_, rest) ← fourHex cs
            pure ((), rest)
          else .error .notJson

/-- Reads a string from after its opening quote to after its closing one, with a
given reader of escapes; at most `n` characters. -/
def stringWithin {α : Type} (plain : Char → α) (escaped : Step α) : Nat → Step (List α)
  | 0, _ => .error .tooShort
  | _ + 1, [] => .error .tooShort
  | n + 1, c :: cs =>
      if c = '"' then .ok ([], cs)
      else if c = '\\' then do
        let (a, rest) ← escaped cs
        let (as, rest) ← stringWithin plain escaped n rest
        pure (a :: as, rest)
      else if c.toNat < 0x20 then .error .notJson
      else do
        let (as, rest) ← stringWithin plain escaped n cs
        pure (plain c :: as, rest)

/-- Reads a string from after its opening quote. -/
def string : Step String := fun cs => do
  let (read, rest) ← stringWithin id escape (cs.length + 1) cs
  pure (String.ofList read, rest)

/-- Passes over a string from after its opening quote. -/
def skipString : Step Unit := fun cs => do
  let (_, rest) ← stringWithin (fun _ => ()) skipEscape (cs.length + 1) cs
  pure ((), rest)

/-! ## Numerals

A numeral has no superfluous zero in front and a digit on each side of its point.
`short` is the problem of a numeral that ends with the text. -/

section Numerals

variable (short : Problem)

/-- Reads at least one digit. -/
def someDigits : Step (List Char) := fun cs =>
  match Decimal.digits? cs with
  | some r => .ok r
  | none => .error (if cs.isEmpty then short else .notJson)

/-- Reads the digits before the point. -/
def wholeDigits : Step (List Char)
  | '0' :: cs => if (Decimal.digits cs).1.isEmpty then .ok (['0'], cs) else .error .notJson
  | cs => someDigits short cs

/-- Reads the point and the digits after it, if there is a point. -/
def fractionDigits : Step (Option (List Char))
  | '.' :: cs => do
      let (ds, rest) ← someDigits short cs
      pure (some ds, rest)
  | cs => .ok (none, cs)

/-- Reads the exponent, if there is one. -/
def exponentPart : Step (Option Decimal.Exponent)
  | [] => .ok (none, [])
  | e :: cs =>
      if e = 'e' ∨ e = 'E' then do
        let (ds, rest) ← someDigits short (Decimal.sign cs).2
        pure (some ⟨e, (Decimal.sign cs).1, ds⟩, rest)
      else .ok (none, e :: cs)

/-- Reads a numeral without a sign. -/
def numeral : Step Decimal.Numeral := fun cs => do
  let (whole, cs) ← wholeDigits short cs
  let (fraction, cs) ← fractionDigits short cs
  let (exponent, cs) ← exponentPart short cs
  pure (⟨whole, fraction, exponent⟩, cs)

end Numerals

/-- Reads digits on for as long as the number fits into 64 bits: the number, and the
digits that are left. -/
def fittingDigits (n : Nat) : List Char → Nat × List Char
  | [] => (n, [])
  | c :: cs =>
      let next := 10 * n + (c.toNat - '0'.toNat)
      if next < UInt64.size then fittingDigits next cs else (n, c :: cs)

/-- Whether a numeral is too large for binary64.  Only those of its first digits
count that fit into 64 bits together: their number is rounded, and so is its
product with the power of ten that remains. -/
def isTooLarge (n : Decimal.Numeral) : Bool :=
  let fraction := n.fraction.getD []
  let (whole, wholeLeft) := fittingDigits 0 n.whole
  let (lead, fractionLeft) := fittingDigits whole fraction
  let exponent : Int := (wholeLeft.length : Int) - fraction.length + fractionLeft.length
    + n.exponent.elim 0 Decimal.Exponent.value
  let product := Decimal.toBinary64 false ⟨lead, 0⟩ * Decimal.toBinary64 false ⟨1, exponent⟩
  lead != 0 && 0 ≤ exponent && !product.isFinite

/-- Reads a number: its value if it is written as a whole number of 64 bits, and
nothing if it is another number.  A number that is too large for binary64 is not
JSON. -/
def number : Step (Option Nat)
  | '-' :: cs => do
      let (n, rest) ← numeral .tooShort cs
      if isTooLarge n then throw .notJson else pure (none, rest)
  | cs => do
      let (n, rest) ← numeral .tooShort cs
      if n.fraction = none ∧ n.exponent = none ∧ Decimal.natural n.whole < UInt64.size then
        pure (some (Decimal.natural n.whole), rest)
      else if isTooLarge n then throw .notJson
      else pure (none, rest)

/-- Passes over a number. -/
def skipNumber : Step Unit
  | '-' :: cs => do
      let (_, rest) ← numeral .notJson cs
      pure ((), rest)
  | cs => do
      let (_, rest) ← numeral .notJson cs
      pure ((), rest)

/-! ## Values that are not asked for -/

/-- Reads the words `null`, `true` and `false`. -/
def constantWord (c : Char) : Option (Step Unit) :=
  match c with
  | 'n' => some (word ['u', 'l', 'l'])
  | 't' => some (word ['r', 'u', 'e'])
  | 'f' => some (word ['a', 'l', 's', 'e'])
  | _ => none

/-- Whether a number starts with a character. -/
def startsNumber (c : Char) : Bool := c == '-' || c.isDigit

/-- The problem of a value of the wrong shape.  Its first token is read before the
shape is found wrong, and may itself be at fault. -/
def misfit (cs : List Char) : Problem :=
  let judge {α : Type} (r : Except Problem α) : Problem :=
    match r with
    | .ok _ => .wrongShape
    | .error e => e
  match skipBlanks cs with
  | [] => .tooShort
  | c :: rest =>
      if c = '[' ∨ c = '\x7b' then .wrongShape
      else if c = '"' then judge (string rest)
      else if startsNumber c then judge (number (c :: rest))
      else
        match constantWord c with
        | some p => judge (p rest)
        | none => .notJson

/-- The character that closes a list or, if `keyed`, an object. -/
def closing (keyed : Bool) : Char := if keyed then '\x7d' else ']'

/-- Reads the colon after a name. -/
def colon : Step Unit := fun cs =>
  match skipBlanks cs with
  | [] => .error .tooShort
  | c :: rest => if c = ':' then .ok ((), rest) else .error .notJson

/-- Passes over a name and its colon. -/
def skipName : Step Unit := fun cs =>
  match skipBlanks cs with
  | [] => .error .tooShort
  | c :: rest =>
      if c = '"' then do
        let (_, rest) ← skipString rest
        colon rest
      else .error .notJson

mutual

/-- Passes over a value of limited size. -/
def skipValueWithin : Nat → Step Unit
  | 0, _ => .error .tooShort
  | n + 1, cs =>
      match skipBlanks cs with
      | [] => .error .tooShort
      | c :: rest =>
          if c = '[' then skipMembersWithin false n rest
          else if c = '\x7b' then skipMembersWithin true n rest
          else if c = '"' then skipString rest
          else if startsNumber c then skipNumber (c :: rest)
          else
            match constantWord c with
            | some p => p rest
            | none => .error .notJson

/-- Passes over the members of a list or an object from after its opening bracket. -/
def skipMembersWithin (keyed : Bool) : Nat → Step Unit
  | 0, _ => .error .tooShort
  | n + 1, cs =>
      match skipBlanks cs with
      | [] => .error .tooShort
      | c :: rest =>
          if c = closing keyed then .ok ((), rest) else skipMoreWithin keyed n (c :: rest)

/-- Passes over at least one member and what follows it. -/
def skipMoreWithin (keyed : Bool) : Nat → Step Unit
  | 0, _ => .error .tooShort
  | n + 1, cs => do
      let (_, cs) ← if keyed then skipName cs else pure ((), cs)
      let (_, cs) ← skipValueWithin n cs
      match skipBlanks cs with
      | [] => throw .tooShort
      | c :: rest =>
          if c = ',' then skipMoreWithin keyed n rest
          else if c = closing keyed then pure ((), rest)
          else throw .notJson

end

/-- Passes over a value.  Every level of it takes at most three steps and at least
one character. -/
def skipValue : Step Unit := fun cs => skipValueWithin (3 * cs.length + 3) cs

/-! ## Writing -/

/-- A character of a string: quotes, backslashes and control characters are escaped,
and nothing else. -/
def escapeChar (c : Char) : List Char :=
  if c = '"' then ['\\', '"']
  else if c = '\\' then ['\\', '\\']
  else if c = '\x08' then ['\\', 'b']
  else if c = '\t' then ['\\', 't']
  else if c = '\n' then ['\\', 'n']
  else if c = '\x0c' then ['\\', 'f']
  else if c = '\r' then ['\\', 'r']
  else if c.toNat < 0x20 then
    ['\\', 'u', '0', '0', Nat.digitChar (c.toNat / 16), Nat.digitChar (c.toNat % 16)]
  else [c]

/-- A string with quotes. -/
def quoted (s : String) : List Char := '"' :: s.toList.flatMap escapeChar ++ ['"']

end MetricFormula.Json
