/-
  Wire/Formula: the binary forms of formulas, columns, policies and spans.

  The parts of a value are written one after the other without marks between them.
  A sum can hold sums; its reader is written over a reader for the sums one level
  further in, and nests as many levels as there are bytes, of which every level
  takes some.
-/
import MetricFormula.Wire.Basic
import MetricFormula.Formula
import MetricFormula.Series.Column

set_option autoImplicit false

namespace MetricFormula.Wire

/-! ## Sums -/

mutual

def putSum : Sum → Bytes
  | .mk positive negative =>
      putNat positive.length ++ putProducts positive
        ++ (putNat negative.length ++ putProducts negative)

def putProducts : List Product → Bytes
  | [] => []
  | p :: ps => putProduct p ++ putProducts ps

def putProduct : Product → Bytes
  | .mk numerator denominator =>
      putNat numerator.length ++ putFactors numerator
        ++ (putNat denominator.length ++ putFactors denominator)

def putFactors : List Factor → Bytes
  | [] => []
  | x :: xs => putFactor x ++ putFactors xs

/-- The alternatives are numbered: call, variable, constant, group. -/
def putFactor : Factor → Bytes
  | .call function arguments =>
      putVariant 0 ++ putText function ++ (putNat arguments.length ++ putSums arguments)
  | .variable name => putVariant 1 ++ putText name
  | .constant value => putVariant 2 ++ putNumber value
  | .group inner => putVariant 3 ++ putSum inner

def putSums : List Sum → Bytes
  | [] => []
  | s :: ss => putSum s ++ putSums ss

end

section Level

variable (inner : Step Sum)

/-- The contents of an alternative of a factor. -/
def takeContents : Nat → Step Factor
  | 0 =>
      Step.andThen takeText fun function =>
        Step.andThen (takeList inner) fun arguments => Step.done (.call function arguments)
  | 1 => Step.andThen takeText fun name => Step.done (.variable name)
  | 2 => Step.andThen takeNumber fun value => Step.done (.constant value)
  | 3 => Step.andThen inner fun s => Step.done (.group s)
  | _ => Step.fail .unknownVariant

def takeFactor : Step Factor :=
  Step.andThen takeVariant (takeContents inner)

def takeProduct : Step Product :=
  Step.andThen (takeList (takeFactor inner)) fun numerator =>
    Step.andThen (takeList (takeFactor inner)) fun denominator =>
      Step.done (.mk numerator denominator)

def takeSumOver : Step Sum :=
  Step.andThen (takeList (takeProduct inner)) fun positive =>
    Step.andThen (takeList (takeProduct inner)) fun negative =>
      Step.done (.mk positive negative)

end Level

/-- A sum of at most a given number of levels. -/
def takeSumWithin : Nat → Step Sum
  | 0 => Step.fail .unexpectedEnd
  | n + 1 => takeSumOver (takeSumWithin n)

def takeSum : Step Sum := fun bs => takeSumWithin (bs.length + 1) bs

/-! ## Sets, formulas, columns, policies and spans -/

def putNames (s : NameSet) : Bytes := putList putText s.toList

/-- A set may be written in any order and with repetitions. -/
def takeNames : Step NameSet :=
  Step.andThen (takeList takeText) fun xs => Step.done (.ofList xs)

def putFormula (f : Formula) : Bytes :=
  putText f.source ++ (putSum f.ast ++ putNames f.freeVariables)

def takeFormula : Step Formula :=
  Step.andThen takeText fun source =>
    Step.andThen takeSum fun ast =>
      Step.andThen takeNames fun names => Step.done ⟨source, ast, names⟩

/-- The alternatives are numbered: scalar, values. -/
def putColumn : Column → Bytes
  | .scalar value => putVariant 0 ++ putNumber value
  | .values samples => putVariant 1 ++ putList putNumber samples

/-- The contents of an alternative of a column. -/
def takeColumnContents : Nat → Step Column
  | 0 => Step.andThen takeNumber fun value => Step.done (.scalar value)
  | 1 => Step.andThen (takeList takeNumber) fun samples => Step.done (.values samples)
  | _ => Step.fail .unknownVariant

def takeColumn : Step Column :=
  Step.andThen takeVariant takeColumnContents

def putPolicy (p : Policy) : Bytes := putNat p.maxDepth ++ putNames p.functions

def takePolicy : Step Policy :=
  Step.andThen takeNat fun maxDepth =>
    Step.andThen takeNames fun functions => Step.done ⟨maxDepth, functions⟩

def putSpan (s : Span) : Bytes := putNat s.start ++ putNat s.stop

def takeSpan : Step Span :=
  Step.andThen takeNat fun start =>
    Step.andThen takeNat fun stop => Step.done ⟨start, stop⟩

end MetricFormula.Wire
