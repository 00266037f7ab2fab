/-
  Grammar/Matcher: matching a text from a place, and what failures leave behind.

  A matcher reads a piece of the text and returns what it saw together with the
  place where it stopped, or fails and gives the text back.  Beside that runs the
  FRONTIER: the furthest place at which a rule has failed so far, with the rules
  that failed there.  A failed alternative gives its text back but not its mark
  on the frontier, so the frontier at the end tells what would have helped.

  Two laws hold of every matcher built here and are stated as equations:
  `bind` runs its second part where the first one stopped, and `orElse` runs its
  second part where the first one started, in both cases with the frontier that
  the first part left.
-/
import MetricFormula.Span
import MetricFormula.Text.Bytes
import MetricFormula.Grammar.Rule

set_option autoImplicit false

namespace MetricFormula.Grammar

open MetricFormula.Text

/-! ## Places and failures -/

/-- A place in a text: the characters still to be read and the byte offset of the
first of them. -/
structure Cursor where
  rest : List Char
  offset : Nat
  deriving DecidableEq, Repr, Inhabited

namespace Cursor

/-- The start of a text. -/
def ofString (s : String) : Cursor := ⟨s.toList, 0⟩

/-- The place after the given characters, with `rest` still to be read. -/
def past (c : Cursor) (read rest : List Char) : Cursor :=
  ⟨rest, c.offset + byteLength read⟩

end Cursor

/-- The furthest offset at which a rule failed, and the rules that failed there in
the order of their failures. -/
structure Frontier where
  offset : Nat
  expected : List Rule
  deriving DecidableEq, Repr, Inhabited

namespace Frontier

/-- The frontier before anything has been tried. -/
def initial : Frontier := ⟨0, []⟩

/-- How many failures are kept for an offset. -/
def count (f : Frontier) (offset : Nat) : Nat :=
  if offset = f.offset then f.expected.length else 0

/-- The frontier after `rule`, tried at `offset` when `before` failures were kept
for that offset, has failed.  If its parts left exactly one failure there, that
more precise one stands for it; otherwise the rule itself replaces them. -/
def record (f : Frontier) (rule : Rule) (offset before : Nat) : Frontier :=
  if f.count offset = before + 1 then f
  else if offset = f.offset then ⟨offset, f.expected.take before ++ [rule]⟩
  else if f.offset < offset then ⟨offset, [rule]⟩
  else f

end Frontier

/-! ## Matchers -/

/-- What a matcher answers: the value and the place after it, or nothing, and the
frontier in either case. -/
abbrev Outcome (α : Type) : Type := Option (α × Cursor) × Frontier

/-- A matcher of values of type `α`. -/
structure Matcher (α : Type) where
  run : Cursor → Frontier → Outcome α

namespace Matcher

variable {α β : Type}

/-- Reads nothing. -/
def succeed (a : α) : Matcher α where
  run c f := (some (a, c), f)

/-- Always fails. -/
def fail : Matcher α where
  run _ f := (none, f)

/-- One matcher after the other. -/
def andThen (p : Matcher α) (k : α → Matcher β) : Matcher β where
  run c f :=
    match p.run c f with
    | (some (a, c'), f') => (k a).run c' f'
    | (none, f') => (none, f')

/-- The second matcher where the first one fails. -/
def orElse (p q : Matcher α) : Matcher α where
  run c f :=
    match p.run c f with
    | (some r, f') => (some r, f')
    | (none, f') => q.run c f'

instance : Monad Matcher where
  pure := succeed
  bind := andThen

instance : OrElse (Matcher α) where
  orElse p q := p.orElse (q ())

/-- The byte offset of the place. -/
def offset : Matcher Nat where
  run c f := (some (c.offset, c), f)

/-- Reads what a scanner splits off the front of the text. -/
def scan (split : List Char → Option (List Char × List Char)) : Matcher (List Char) where
  run c f :=
    match split c.rest with
    | some (read, rest) => (some (read, c.past read rest), f)
    | none => (none, f)

/-- Reads one character of a class. -/
def satisfy (p : Char → Bool) : Matcher Char where
  run c f :=
    match c.rest with
    | d :: rest => if p d then (some (d, c.past [d] rest), f) else (none, f)
    | [] => (none, f)

/-- Reads one given character. -/
def char (d : Char) : Matcher Unit := do
  let _ ← satisfy (· == d)
  pure ()

/-- Reads as many characters of a class as there are. -/
def skipWhile (p : Char → Bool) : Matcher Unit where
  run c f := (some ((), c.past (c.rest.takeWhile p) (c.rest.dropWhile p)), f)

/-- Succeeds where the next character is not `d`. -/
def notAhead (d : Char) : Matcher Unit where
  run c f :=
    match c.rest with
    | e :: _ => if e == d then (none, f) else (some ((), c), f)
    | [] => (some ((), c), f)

/-- Succeeds where nothing is left. -/
def atEnd : Matcher Unit where
  run c f :=
    match c.rest with
    | [] => (some ((), c), f)
    | _ :: _ => (none, f)

/-- At most `n` times. -/
def atMost (p : Matcher α) : Nat → Matcher (List α)
  | 0 => pure []
  | n + 1 =>
      (do
        let a ← p
        let as ← atMost p n
        pure (a :: as))
      <|> pure []

/-- As often as possible.  A matcher that always reads a character can succeed no
more often than there are characters; the one try more lets the last failure mark
the frontier. -/
def many (p : Matcher α) : Matcher (List α) where
  run c f := (p.atMost (c.rest.length + 1)).run c f

/-- A matcher that counts as a rule: where it fails, the frontier learns of it. -/
def named (rule : Rule) (p : Matcher α) : Matcher α where
  run c f :=
    match p.run c f with
    | (some r, f') => (some r, f')
    | (none, f') => (none, f'.record rule c.offset (f.count c.offset))

/-! ## Equations -/

@[simp] theorem run_pure (a : α) (c : Cursor) (f : Frontier) :
    (pure a : Matcher α).run c f = (some (a, c), f) := rfl

@[simp] theorem run_fail (c : Cursor) (f : Frontier) :
    (fail : Matcher α).run c f = (none, f) := rfl

theorem run_bind (p : Matcher α) (k : α → Matcher β) (c : Cursor) (f : Frontier) :
    (p >>= k).run c f =
      match p.run c f with
      | (some (a, c'), f') => (k a).run c' f'
      | (none, f') => (none, f') := rfl

theorem run_orElse (p q : Matcher α) (c : Cursor) (f : Frontier) :
    (p <|> q).run c f =
      match p.run c f with
      | (some r, f') => (some r, f')
      | (none, f') => q.run c f' := rfl

theorem run_named (rule : Rule) (p : Matcher α) (c : Cursor) (f : Frontier) :
    (named rule p).run c f =
      match p.run c f with
      | (some r, f') => (some r, f')
      | (none, f') => (none, f'.record rule c.offset (f.count c.offset)) := rfl

@[simp] theorem run_offset (c : Cursor) (f : Frontier) :
    offset.run c f = (some (c.offset, c), f) := rfl

@[ext] theorem ext {p q : Matcher α} (h : ∀ c f, p.run c f = q.run c f) : p = q := by
  cases p
  cases q
  simp only [mk.injEq]
  funext c f
  exact h c f

instance : LawfulMonad Matcher := LawfulMonad.mk' Matcher
  (by
    intro α p
    ext1 c f
    change (p >>= fun a => pure a).run c f = p.run c f
    rw [run_bind]
    rcases p.run c f with ⟨_ | ⟨a, c'⟩, f'⟩ <;> rfl)
  (by intros; rfl)
  (by
    intro α β γ p k l
    ext1 c f
    simp only [run_bind]
    rcases p.run c f with ⟨_ | ⟨a, c'⟩, f'⟩ <;> rfl)

end Matcher

end MetricFormula.Grammar
