/-!
# Choice of analyses

Which passes run over a program, and the limits that some of them have.
-/

namespace LineBasic

structure AnalysisConfig where
  commonSubexpressions : Bool := true
  strengthReduction : Bool := true
  /-- Strength reduction uses the rules for logical operators as well. -/
  booleanRules : Bool := true
  forwardSubstitution : Bool := true
  integerRanges : Bool := true
  uninitialized : Bool := true
  loops : Bool := true
  /-- The deepest nesting of `GOSUB` that is accepted without a warning. -/
  maxCallDepth : Nat := 32
  /-- How many rounds a growing integer range is followed before it is given up. -/
  maxRangeRounds : Nat := 10
  deriving DecidableEq, Repr

/-- Errors and warnings, without the analyses that only serve optimization. -/
def AnalysisConfig.diagnosticsOnly : AnalysisConfig :=
  { commonSubexpressions := false
    strengthReduction := false
    booleanRules := false
    forwardSubstitution := false
    integerRanges := false
    loops := false }

end LineBasic
