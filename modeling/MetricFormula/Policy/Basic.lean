/-
  Policy/Basic: the limits under which formulas are handled.
-/
import MetricFormula.NameSet

set_option autoImplicit false

namespace MetricFormula

/-- How deeply formulas may nest, and which functions they may call. -/
structure Policy where
  maxDepth : Nat
  functions : NameSet
  deriving DecidableEq

namespace Policy

/-- The depth that is allowed unless another one is stated. -/
def defaultMaxDepth : Nat := 100

/-- The functions that are allowed unless others are stated. -/
def defaultFunctions : NameSet := .ofList ["norm"]

/-- The policy that holds unless another one is stated. -/
def standard : Policy := ⟨defaultMaxDepth, defaultFunctions⟩

instance : Inhabited Policy := ⟨standard⟩

/-- The policy with other functions. -/
def withFunctions (p : Policy) (functions : List String) : Policy :=
  { p with functions := .ofList functions }

/-- The policy with another depth. -/
def withMaxDepth (p : Policy) (maxDepth : Nat) : Policy :=
  { p with maxDepth := maxDepth }

end Policy

end MetricFormula
