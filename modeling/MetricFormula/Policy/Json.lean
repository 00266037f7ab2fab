/-
  Policy/Json: policies as JSON texts.

  A policy is an object with the members `max_depth` and `functions`, in any order.
  A member that is missing has its standard value, members of other names are
  passed over, and neither of the two may be given twice.  A list of the two values
  in this order, which may be shorter, is accepted as well.

  A policy is written with both members and without blanks.
-/
import MetricFormula.Policy.Basic
import MetricFormula.Json.Basic

set_option autoImplicit false

namespace MetricFormula.Policy

open MetricFormula.Json

/-! ## Reading the values -/

/-- Reads a depth. -/
def readDepth : Step Nat := fun cs =>
  match skipBlanks cs with
  | [] => .error .tooShort
  | c :: rest =>
      if startsNumber c then do
        match ← number (c :: rest) with
        | (some n, rest) => pure (n, rest)
        | (none, _) => throw .wrongShape
      else .error (misfit (c :: rest))

/-- Reads a name. -/
def readName : Step String := fun cs =>
  match skipBlanks cs with
  | [] => .error .tooShort
  | c :: rest => if c = '"' then string rest else .error (misfit (c :: rest))

/-- Reads at least one name and what follows it, up to the closing bracket. -/
def readNamesWithin : Nat → Step (List String)
  | 0, _ => .error .tooShort
  | n + 1, cs => do
      let (x, cs) ← readName cs
      match skipBlanks cs with
      | [] => throw .tooShort
      | c :: rest =>
          if c = ']' then pure ([x], rest)
          else if c = ',' then
            if (skipBlanks rest).head? = some ']' then throw .notJson
            else
              let (xs, rest) ← readNamesWithin n rest
              pure (x :: xs, rest)
          else throw .notJson

/-- Reads a list of names. -/
def readFunctions : Step NameSet := fun cs =>
  match skipBlanks cs with
  | [] => .error .tooShort
  | c :: rest =>
      if c = '[' then
        match skipBlanks rest with
        | [] => .error .tooShort
        | d :: tail =>
            if d = ']' then .ok (.empty, tail)
            else do
              let (xs, rest) ← readNamesWithin rest.length rest
              pure (.ofList xs, rest)
      else .error (misfit (c :: rest))

/-! ## Reading objects and lists -/

/-- The members that have been read. -/
structure Members where
  maxDepth : Option Nat
  functions : Option NameSet

/-- No members yet. -/
def Members.none : Members := ⟨Option.none, Option.none⟩

/-- The policy with the given members, and standard values for the others. -/
def ofMembers (m : Members) : Policy :=
  ⟨m.maxDepth.getD standard.maxDepth, m.functions.getD standard.functions⟩

/-- Reads the value of a member from after its name. -/
def readMember (m : Members) (name : String) : Step Members := fun cs =>
  if name = "max_depth" then do
    if m.maxDepth.isSome then throw .wrongShape
    let (_, cs) ← colon cs
    let (n, cs) ← readDepth cs
    pure (⟨some n, m.functions⟩, cs)
  else if name = "functions" then do
    if m.functions.isSome then throw .wrongShape
    let (_, cs) ← colon cs
    let (s, cs) ← readFunctions cs
    pure (⟨m.maxDepth, some s⟩, cs)
  else do
    let (_, cs) ← colon cs
    let (_, cs) ← skipValue cs
    pure (m, cs)

/-- Reads at least one member and what follows it, up to the closing brace. -/
def readMembersWithin : Nat → Members → Step Members
  | 0, _, _ => .error .tooShort
  | n + 1, m, cs =>
      match skipBlanks cs with
      | [] => .error .tooShort
      | c :: rest =>
          if c = '"' then do
            let (name, cs) ← string rest
            let (m, cs) ← readMember m name cs
            match skipBlanks cs with
            | [] => throw .tooShort
            | c :: rest =>
                if c = '\x7d' then pure (m, rest)
                else if c = ',' then readMembersWithin n m rest
                else throw .notJson
          else .error .notJson

/-- Reads an object from after its opening brace. -/
def readObject : Step Policy := fun cs =>
  match skipBlanks cs with
  | [] => .error .tooShort
  | c :: rest =>
      if c = '\x7d' then .ok (standard, rest)
      else do
        let (m, rest) ← readMembersWithin cs.length .none (c :: rest)
        pure (ofMembers m, rest)

/-- Reads the closing bracket of a list. -/
def readClosing : Step Unit := fun cs =>
  match skipBlanks cs with
  | [] => .error .tooShort
  | c :: rest => if c = ']' then .ok ((), rest) else .error .notJson

/-- Reads the second value of a list and its closing bracket, if there is one. -/
def readSecond (maxDepth : Nat) : Step Policy := fun cs =>
  match skipBlanks cs with
  | [] => .error .tooShort
  | c :: rest =>
      if c = ']' then .ok (⟨maxDepth, standard.functions⟩, rest)
      else if c = ',' then
        if (skipBlanks rest).head? = some ']' then .error .notJson
        else do
          let (functions, rest) ← readFunctions rest
          let (_, rest) ← readClosing rest
          pure (⟨maxDepth, functions⟩, rest)
      else .error .notJson

/-- Reads a list from after its opening bracket. -/
def readList : Step Policy := fun cs =>
  match skipBlanks cs with
  | [] => .error .tooShort
  | c :: rest =>
      if c = ']' then .ok (standard, rest)
      else do
        let (maxDepth, rest) ← readDepth (c :: rest)
        readSecond maxDepth rest

/-- Reads a policy at the front of a text. -/
def readValue : Step Policy := fun cs =>
  match skipBlanks cs with
  | [] => .error .tooShort
  | c :: rest =>
      if c = '[' then readList rest
      else if c = '\x7b' then readObject rest
      else .error (misfit (c :: rest))

/-- The policy that a text holds. -/
def ofJson (s : String) : Except Problem Policy := do
  let (p, rest) ← readValue s.toList
  if (skipBlanks rest).isEmpty then pure p else throw .notJson

/-! ## Writing -/

/-- Names in a list, with commas between them. -/
def quotedNames : List String → List Char
  | [] => []
  | [x] => quoted x
  | x :: xs => quoted x ++ ',' :: quotedNames xs

/-- The text of a policy. -/
def jsonText (p : Policy) : List Char :=
  '\x7b' :: quoted "max_depth" ++ ':' :: Nat.toDigits 10 p.maxDepth
    ++ ',' :: quoted "functions" ++ ':' :: '[' :: quotedNames p.functions.toList ++ [']', '\x7d']

/-- The text of a policy. -/
def toJson (p : Policy) : String := String.ofList p.jsonText

end MetricFormula.Policy
