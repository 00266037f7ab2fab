/-
  Wire/Basic: the pieces of the binary form of values.

  A whole number is written in groups of seven bits, the lowest group first, with
  the eighth bit set on every byte but the last.  A text and a list carry their
  length in front; a binary64 number takes eight bytes, the lowest first; a choice
  is the number of the alternative and then its contents.

  A reader takes a value off the front of the bytes and hands the rest back.  It
  accepts groups that are longer than needed, up to the width of the number.
-/
import MetricFormula.Binary64.Bits

set_option autoImplicit false

namespace MetricFormula.Wire

abbrev Bytes : Type := List UInt8

/-- Why bytes do not hold a value. -/
inductive Flaw where
  /-- The bytes end inside a value. -/
  | unexpectedEnd
  /-- A whole number is too large for its width. -/
  | badVarint
  /-- A text is not UTF-8. -/
  | badText
  /-- There is no alternative of this number. -/
  | unknownVariant
  deriving DecidableEq, Repr

/-- A reader: the value at the front of the bytes, and the bytes after it. -/
abbrev Step (α : Type) : Type := Bytes → Except Flaw (α × Bytes)

namespace Step

variable {α β : Type}

/-- Reads nothing. -/
def done (a : α) : Step α := fun bs => .ok (a, bs)

/-- Always fails. -/
def fail (e : Flaw) : Step α := fun _ => .error e

/-- One reader after the other. -/
def andThen (p : Step α) (k : α → Step β) : Step β := fun bs =>
  match p bs with
  | .ok (a, rest) => k a rest
  | .error e => .error e

theorem andThen_ok {p : Step α} {k : α → Step β} {bs rest : Bytes} {a : α}
    (h : p bs = .ok (a, rest)) : andThen p k bs = k a rest := by
  simp only [andThen, h]

end Step

/-! ## Whole numbers -/

/-- Writes a whole number in at most `more + 1` groups. -/
def putGroups : (more n : Nat) → Bytes
  | 0, n => [UInt8.ofNat n]
  | more + 1, n =>
      if n < 128 then [UInt8.ofNat n]
      else UInt8.ofNat (n % 128 + 128) :: putGroups more (n / 128)

/-- Reads a whole number of at most `more + 1` groups, the last of which, if all are
there, must not exceed `last`. -/
def takeGroups (last : Nat) : (more : Nat) → Step Nat
  | _, [] => .error .unexpectedEnd
  | 0, b :: bs => if b.toNat ≤ last then .ok (b.toNat, bs) else .error .badVarint
  | more + 1, b :: bs =>
      if b.toNat < 128 then .ok (b.toNat, bs)
      else
        match takeGroups last more bs with
        | .ok (high, rest) => .ok (b.toNat - 128 + 128 * high, rest)
        | .error e => .error e

/-- A whole number of 64 bits: nine groups and one bit. -/
def putNat (n : Nat) : Bytes := putGroups 9 n

def takeNat : Step Nat := takeGroups 1 9

/-- The number of an alternative has 32 bits: four groups and four bits. -/
def putVariant (n : Nat) : Bytes := putGroups 4 n

def takeVariant : Step Nat := takeGroups 15 4

/-! ## Runs of bytes, texts and lists -/

/-- Takes a number of bytes. -/
def takeBytes : Nat → Step Bytes
  | 0, bs => .ok ([], bs)
  | _ + 1, [] => .error .unexpectedEnd
  | n + 1, b :: bs =>
      match takeBytes n bs with
      | .ok (read, rest) => .ok (b :: read, rest)
      | .error e => .error e

/-- The bytes of a text. -/
def textBytes (s : String) : Bytes := s.toUTF8.data.toList

/-- A text, with the number of its bytes in front. -/
def putText (s : String) : Bytes := putNat (textBytes s).length ++ textBytes s

/-- The text that bytes encode. -/
def textOfBytes (bs : Bytes) : Except Flaw String :=
  match String.fromUTF8? ⟨bs.toArray⟩ with
  | some s => .ok s
  | none => .error .badText

def takeText : Step String :=
  Step.andThen takeNat fun n =>
    Step.andThen (takeBytes n) fun bs rest =>
      match textOfBytes bs with
      | .ok s => .ok (s, rest)
      | .error e => .error e

/-- Takes a number of values. -/
def takeCount {α : Type} (p : Step α) : Nat → Step (List α)
  | 0 => Step.done []
  | n + 1 =>
      Step.andThen p fun a =>
        Step.andThen (takeCount p n) fun as => Step.done (a :: as)

/-- A list that is written value by value, with their number in front. -/
def putList {α : Type} (put : α → Bytes) (as : List α) : Bytes :=
  putNat as.length ++ as.flatMap put

def takeList {α : Type} (p : Step α) : Step (List α) :=
  Step.andThen takeNat (takeCount p)

/-! ## Binary64 numbers -/

/-- A whole number in a given count of bytes, the lowest first. -/
def putFixed : (count n : Nat) → Bytes
  | 0, _ => []
  | count + 1, n => UInt8.ofNat (n % 256) :: putFixed count (n / 256)

/-- The number that bytes make up, the lowest first. -/
def fixedValue : Bytes → Nat
  | [] => 0
  | b :: bs => b.toNat + 256 * fixedValue bs

def putNumber (x : Binary64) : Bytes := putFixed 8 x.toBits.toNat

def takeNumber : Step Binary64 :=
  Step.andThen (takeBytes 8) fun bs => Step.done (.ofBits (UInt64.ofNat (fixedValue bs)))

end MetricFormula.Wire
