import LineBasic.Check.References
import LineBasic.Check.Subroutines
import LineBasic.Check.Switches
import LineBasic.Flow.AvailableExpressions
import LineBasic.Flow.ReachingDefinitions
import LineBasic.Loop.Summary
import LineBasic.Program.Simplification
import LineBasic.Range.Condition
import LineBasic.Range.Inference

/-!
# Findings

What the passes find, one list for each kind of finding, and the contribution of a single pass.
-/

namespace LineBasic

structure Findings where
  folded : List FoldedExpression := []
  reductions : List ReducedExpression := []
  commonSubexpressions : List CommonSubexpression := []
  substitutions : List Substitution := []
  uninitialized : List UninitializedUse := []
  loops : List LoopSummary := []
  integerRanges : List IntegerRange := []
  conditionRanges : List ConditionRange := []
  switches : List RequiredSwitch := []

/-- What one run of a pass finds. -/
inductive Contribution where
  | checks (errors : List SemanticError) (warnings : List Diagnostic)
      (switches : List RequiredSwitch)
  | folded (found : List FoldedExpression)
  | reductions (found : List ReducedExpression)
  | commonSubexpressions (found : List CommonSubexpression)
  | substitutions (found : List Substitution)
  | uninitialized (found : List UninitializedUse)
  | loops (found : List LoopSummary)
  | integerRanges (found : List IntegerRange)
  | conditionRanges (found : List ConditionRange)

namespace Contribution

/-- The number of findings; a required switch does not count as one. -/
def count : Contribution → Nat
  | checks errors warnings _ => errors.length + warnings.length
  | folded found => found.length
  | reductions found => found.length
  | commonSubexpressions found => found.length
  | substitutions found => found.length
  | uninitialized found => found.length
  | loops found => found.length
  | integerRanges found => found.length
  | conditionRanges found => found.length

/-- Further counts with their names. -/
def statistics : Contribution → List (String × Nat)
  | checks errors _ switches => [("errors", errors.length), ("switches", switches.length)]
  | substitutions found =>
    [("dead-stores", (found.filter Substitution.isDeadStore).length)]
  | loops found => [("invariants", (found.flatMap LoopSummary.invariants).length)]
  | integerRanges found => [("8-bit", (found.filter fun r => r.width.bits == 8).length)]
  | conditionRanges found =>
    [("constant-propagations", (found.filter fun r => r.constant?.isSome).length)]
  | folded _ | reductions _ | commonSubexpressions _ | uninitialized _ => []

end Contribution

/-- The symbol table with the ranges of its scalars. -/
def SymbolTable.withRanges (t : SymbolTable) (ranges : List IntegerRange) : SymbolTable :=
  { t with scalars := ranges.foldl (fun m r =>
      m.modify r.name fun info => { info with integerRange := some r }) t.scalars }

end LineBasic
