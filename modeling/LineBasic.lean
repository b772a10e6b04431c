import LineBasic.Expr.Reduction
import LineBasic.Grammar.Program
import LineBasic.Program.Walk
import LineBasic.Diagnostic.Format
import LineBasic.ArrayLayout
import LineBasic.Error.Semantic
import LineBasic.Range.Interval
import LineBasic.Range.Inference
import LineBasic.Loop.TripCount
import LineBasic.Report.Encoding
import LineBasic.Symbol.Build
import LineBasic.Flow.Build
import LineBasic.Flow.Effects
import LineBasic.Flow.DefiniteAssignment
import LineBasic.Flow.ReachingDefinitions
import LineBasic.Flow.AvailableExpressions
import LineBasic.Program.Simplification
import LineBasic.Loop.Summary
import LineBasic.Range.Condition
import LineBasic.Check.References
import LineBasic.Check.Switches
import LineBasic.Check.Subroutines
import LineBasic.Journal.Filter
import LineBasic.Analysis.Source
import LineBasic.Report.Findings
import LineBasic.Report.Text
import LineBasic.CommandLine.Run
import LineBasic.Main
import LineBasic.Proofs.Graph.Edges
import LineBasic.Proofs.Graph.WellFormed
import LineBasic.Proofs.Graph.LoopRegions
import LineBasic.Proofs.Flow.CallStrings
import LineBasic.Proofs.Flow.Solver
import LineBasic.Proofs.Flow.Termination
import LineBasic.Proofs.Flow.Solution
import LineBasic.Proofs.Flow.DefiniteAssignment
import LineBasic.Proofs.Flow.Candidates
import LineBasic.Proofs.Flow.AvailableExpressions
import LineBasic.Proofs.Flow.CommonSubexpressions
import LineBasic.Proofs.Flow.ReachingDefinitions
import LineBasic.Proofs.Flow.ForwardSubstitution
import LineBasic.Proofs.Flow.UseCounts
import LineBasic.Proofs.Flow.DescendingChains
import LineBasic.Proofs.Expr.Reduction
import LineBasic.Proofs.Flow.Expansion
import LineBasic.Proofs.Graph.Separation
import LineBasic.Proofs.Graph.SeparatedLoops
import LineBasic.Proofs.Graph.SeparatedEdges
import LineBasic.Proofs.Flow.SeparatedPaths
import LineBasic.Proofs.Flow.SeparateNexts
import LineBasic.Proofs.Graph.Arms
import LineBasic.Proofs.Loop.Invariants
import LineBasic.Proofs.Flow.Execution
import LineBasic.Proofs.Symbol.RunTimeExtents
import LineBasic.Proofs.Range.ArmRanges
import LineBasic.Proofs.Range.Intersection
import LineBasic.Proofs.Range.ConditionValues
import LineBasic.Proofs.Range.CheckedIntervals
import LineBasic.Proofs.Range.IntegerRuns
import LineBasic.Proofs.Expr.ReducedConstants
import LineBasic.Proofs.Expr.ImpureCalls
import LineBasic.Proofs.Expr.NormalForms
import LineBasic.Proofs.Expr.KeyIdentity
import LineBasic.Proofs.Expr.ReducedText
import LineBasic.Proofs.Flow.ErrorTraps
import LineBasic.Proofs.Flow.LineArms
import LineBasic.Proofs.Loop.ConstantBounds
import LineBasic.Proofs.Loop.InductionVariables
import LineBasic.Proofs.ArrayLayout.IndexExpression
import LineBasic.Proofs.ArrayLayout.Places
import LineBasic.Proofs.ArrayLayout.RowMajor
import LineBasic.Proofs.Symbol.OptionBase
import LineBasic.Proofs.Check.CallDepth
import LineBasic.Proofs.Grammar.RoundTrip
import LineBasic.Proofs.Source.ProgramLines
import LineBasic.Proofs.Source.FaultPositions
import LineBasic.Proofs.Flow.ReachedFacts
import LineBasic.Proofs.Analysis.CanonicalSpelling
import LineBasic.Proofs.Analysis.Verdict
import LineBasic.Proofs.Loop.TripCount
import LineBasic.Proofs.Symbol.ScalarNames
import LineBasic.Proofs.Grammar.StatementPlaces
