/-
  Grammar/Formula: the matchers of the formula grammar.

  Each matcher that reads a parenthesis is written over a matcher `inner` for the
  expressions one level further in, and `expressionWithin n` nests `n` levels.
  A text with `k` opening parentheses cannot nest more than `k + 1` levels, so
  `expression` nests that many; what stands below the last level is never
  reached.
-/
import MetricFormula.Grammar.Matcher
import MetricFormula.Grammar.Tree

set_option autoImplicit false

namespace MetricFormula.Grammar

open Matcher

variable {α : Type}

/-! ## Small parts -/

/-- The blanks between the parts of a rule. -/
def gap : Matcher Unit := skipWhile Scan.isGap

/-- A part with the range it covers. -/
def spanned (p : Matcher α) : Matcher (Span × α) := do
  let start ← offset
  let a ← p
  let stop ← offset
  pure (⟨start, stop⟩, a)

/-- A word that a scanner splits off. -/
def lexeme (split : List Char → Option (List Char × List Char)) : Matcher Lexeme := do
  let (span, read) ← spanned (scan split)
  pure ⟨String.ofList read, span⟩

/-- Any number of parts, with blanks before each of them.  The blanks before the
first part are read even if there is no part; the blanks before a later one are
given back with it. -/
def repeated (p : Matcher α) : Matcher (List α) := do
  gap
  (do
    let a ← p
    let as ← many (do gap; p)
    pure (a :: as))
  <|> pure []

def identifier : Matcher Lexeme := named .identifier (lexeme Scan.identifier)

def constant : Matcher Lexeme := named .constant (lexeme Scan.constant)

def endOfInput : Matcher Unit := named .endOfInput atEnd

/-- One given operator, and the offset at which it stands. -/
def additiveSymbol (operator : AdditiveOperator) : Matcher (AdditiveOperator × Nat) :=
  named operator.rule do
    let place ← offset
    char operator.symbol
    pure (operator, place)

/-- One given operator, and the offset at which it stands. -/
def multiplicativeSymbol (operator : MultiplicativeOperator) :
    Matcher (MultiplicativeOperator × Nat) :=
  named operator.rule do
    let place ← offset
    char operator.symbol
    pure (operator, place)

/-- An identifier that no opening parenthesis follows.  The blanks that separate
it from whatever follows belong to it. -/
def reference : Matcher FactorTree :=
  named .reference do
    let (span, name) ← spanned do
      let name ← identifier
      gap
      notAhead '('
      pure name
    pure (.reference span name)

/-! ## One level of nesting -/

section Level

variable (inner : Matcher ExpressionTree)

/-- An expression in parentheses. -/
def groupedOver : Matcher FactorTree := do
  char '('
  gap
  let e ← inner
  gap
  char ')'
  pure (.group e)

/-- A comma and a further argument. -/
def argumentOver : Matcher ExpressionTree := do
  char ','
  gap
  inner

/-- A name and its arguments in parentheses. -/
def callOver : Matcher FactorTree :=
  named .call do
    let (span, name, first, others) ← spanned do
      let name ← identifier
      gap
      char '('
      gap
      let first ← inner
      let others ← repeated (argumentOver inner)
      gap
      char ')'
      pure (name, first, others)
    pure (.call span name first others)

/-- The alternatives are tried in this order. -/
def factorOver : Matcher FactorTree :=
  callOver inner
  <|> reference
  <|> (do
    let literal ← constant
    pure (.constant literal))
  <|> groupedOver inner

/-- An operator between factors, and the next factor. -/
def termStepOver : Matcher TermStep := do
  let (operator, place) ← multiplicativeSymbol .times <|> multiplicativeSymbol .dividedBy
  gap
  let factor ← factorOver inner
  pure (.mk operator place factor)

/-- A factor and the steps after it. -/
def termOver : Matcher TermTree :=
  named .term do
    let (span, first, steps) ← spanned do
      let first ← factorOver inner
      let steps ← repeated (termStepOver inner)
      pure (first, steps)
    pure (.mk span first steps)

/-- An operator between terms, and the next term. -/
def expressionStepOver : Matcher ExpressionStep := do
  let (operator, place) ← additiveSymbol .plus <|> additiveSymbol .minus
  gap
  let term ← termOver inner
  pure (.mk operator place term)

/-- A term and the steps after it. -/
def expressionOver : Matcher ExpressionTree :=
  named .expression do
    let (span, first, steps) ← spanned do
      let first ← termOver inner
      let steps ← repeated (expressionStepOver inner)
      pure (first, steps)
    pure (.mk span first steps)

end Level

/-! ## All levels -/

/-- Expressions of at most `n` levels, over a matcher for what lies below. -/
def expressionWithin (bottom : Matcher ExpressionTree) : Nat → Matcher ExpressionTree
  | 0 => bottom
  | n + 1 => expressionOver (expressionWithin bottom n)

/-- The number of opening parentheses still to be read. -/
def Cursor.openings (c : Cursor) : Nat := c.rest.count '('

/-- A matcher that is written over the level below, with as many levels below it
as the text can nest. -/
def nested (p : Matcher ExpressionTree → Matcher α) : Matcher α where
  run c f := (p (expressionWithin fail c.openings)).run c f

/-- An expression. -/
def expression : Matcher ExpressionTree := nested expressionOver

/-- A whole formula over a matcher for its expression: the expression and the end of
the text, with blanks around the expression. -/
def formulaOver (whole : Matcher ExpressionTree) : Matcher ExpressionTree :=
  named .main do
    gap
    let e ← whole
    gap
    endOfInput
    pure e

/-- A whole formula. -/
def formula : Matcher ExpressionTree := formulaOver expression

/-! ## Every rule as a starting point -/

/-- The parts of an exponent, between which blanks may stand. -/
def looseExponent : Matcher Unit := do
  let _ ← satisfy fun c => c == 'e' || c == 'E'
  gap
  (char '+' <|> char '-' <|> pure ())
  gap
  let _ ← satisfy Char.isDigit
  let _ ← repeated (satisfy Char.isDigit)
  pure ()

/-- The outlines that a rule leaves when a text is matched from it. -/
def outlineFrom : Rule → Matcher (List Outline)
  | .main => do
      let (span, e, stop) ← spanned do
        let e ← formula
        let stop ← offset
        pure (e, stop)
      pure [.mk .main span [e.outline, .mk .endOfInput (Span.point stop) []]]
  | .expression => do
      let e ← expression
      pure [e.outline]
  | .add => do
      let (operator, place) ← additiveSymbol .plus
      pure [.mk operator.rule ⟨place, place + 1⟩ []]
  | .sub => do
      let (operator, place) ← additiveSymbol .minus
      pure [.mk operator.rule ⟨place, place + 1⟩ []]
  | .term => do
      let t ← nested termOver
      pure [t.outline]
  | .mul => do
      let (operator, place) ← multiplicativeSymbol .times
      pure [.mk operator.rule ⟨place, place + 1⟩ []]
  | .div => do
      let (operator, place) ← multiplicativeSymbol .dividedBy
      pure [.mk operator.rule ⟨place, place + 1⟩ []]
  | .factor => do
      let x ← nested factorOver
      pure [x.outline]
  | .grouped => do
      let x ← nested groupedOver
      pure [x.outline]
  | .call => do
      let x ← nested callOver
      pure [x.outline]
  | .reference => do
      let x ← reference
      pure [x.outline]
  | .constant => do
      let l ← constant
      pure [l.outline .constant]
  | .exponent => do
      looseExponent
      pure []
  | .identifier => do
      let l ← identifier
      pure [l.outline .identifier]
  | .blank => do
      let _ ← satisfy Scan.isGap
      pure []
  | .endOfInput => do
      let place ← offset
      endOfInput
      pure [.mk .endOfInput (Span.point place) []]

/-! ## Matching a text from its start -/

/-- What a matcher makes of a text, or the frontier at which it failed.  The text
need not be read to its end. -/
def matchFrom (p : Matcher α) (source : String) : Except Frontier α :=
  match p.run (Cursor.ofString source) Frontier.initial with
  | (some (a, _), _) => .ok a
  | (none, f) => .error f

/-- The parse tree of a formula. -/
def tree (source : String) : Except Frontier ExpressionTree :=
  matchFrom formula source

end MetricFormula.Grammar
