import LineBasic.Report.Encoding
import LineBasic.Analysis.Program

/-!
# Structured reports

The findings of an analysis, and the whole report on a program, as structured values.
-/

namespace LineBasic

open Json

def FoldedExpression.toJson (f : FoldedExpression) : Json :=
  .object [("line", natural f.line), ("expression", .string f.expression),
    ("value", f.value.toJson)]

def CommonSubexpression.toJson (c : CommonSubexpression) : Json :=
  .object [("expression", .string c.expression), ("flattened_index", optional .string c.index),
    ("first_line", natural c.firstLine), ("occurrences", list natural c.laterLines),
    ("variables", strings c.reads)]

def Substitution.toJson (s : Substitution) : Json :=
  .object [("line", natural s.line), ("variable", .string s.name),
    ("expression", .string s.expression), ("use_count", natural s.useLines.length),
    ("use_lines", list natural s.useLines), ("can_substitute", .bool s.canSubstitute),
    ("is_dead_store", .bool s.isDeadStore), ("reason", .string s.reason)]

def UninitializedUse.toJson (u : UninitializedUse) : Json :=
  .object [("line", natural u.line), ("variable", .string u.name), ("context", .string u.context)]

def LoopInvariant.toJson (i : LoopInvariant) : Json :=
  .object [("expression", .string i.expression), ("first_line", natural i.firstLine),
    ("occurrences", natural i.occurrences), ("hoistable", .bool i.isHoistable)]

def InductionVariable.toJson (v : InductionVariable) : Json :=
  .object [("variable", .string v.name), ("base", optional .string v.base),
    ("multiplier", .float v.multiplier), ("offset", .float v.offset), ("line", natural v.line)]

def SubscriptReduction.toJson (r : SubscriptReduction) : Json :=
  .object [("line", natural r.line), ("array", .string r.array), ("term", .string r.term),
    ("variable", .string r.name), ("multiplier", .float r.multiplier)]

def LoopSummary.toJson (l : LoopSummary) : Json :=
  .object [("start_line", natural l.startLine), ("end_line", natural l.endLine),
    ("variable", .string l.counter), ("start", optional .float l.start),
    ("end", optional .float l.stop), ("step", optional .float l.step),
    ("iteration_count", optional natural l.tripCount), ("nesting_depth", natural l.depth),
    ("contains_gosub", .bool l.callsSubroutine),
    ("invariants", list LoopInvariant.toJson l.invariants),
    ("induction_variables", list InductionVariable.toJson l.inductionVariables),
    ("subscript_reductions", list SubscriptReduction.toJson l.subscriptReductions)]

def ValueRange.toJson (r : ValueRange Float) : Json :=
  let value (b : Bound Float) : Json := .float b.value
  .object [("min", optional value r.lower), ("max", optional value r.upper),
    ("min_exclusive", .bool (r.lower.any Bound.isExclusive)),
    ("max_exclusive", .bool (r.upper.any Bound.isExclusive))]

def ConditionRange.toJson (r : ConditionRange) : Json :=
  .object [("variable", .string r.name), ("line", natural r.line), ("context", .string r.context),
    ("range", r.range.toJson), ("enabled_optimization", optional .string r.improvement?)]

def RequiredSwitch.toJson (s : RequiredSwitch) : Json :=
  .object [("switch", .string s.switch.text), ("reason", .string s.switch.reason),
    ("first_line", natural s.firstLine)]

/-- The part of a diagnostic that a report repeats. -/
def Diagnostic.toReportJson (d : Diagnostic) : Json :=
  .object [("code", optional .string d.code), ("line", optional natural d.line),
    ("message", .string d.message)]

namespace Findings

/-- The simplifications and the repeated computations. -/
def simplificationMembers (f : Findings) : List (String × Json) :=
  [("folded_expressions", list FoldedExpression.toJson f.folded),
    ("strength_reductions", list (fun r => r.reduction.toJson r.line) f.reductions),
    ("common_subexpressions", list CommonSubexpression.toJson f.commonSubexpressions),
    ("forward_substitutions", list Substitution.toJson f.substitutions)]

/-- The loops and the ranges. -/
def loopMembers (f : Findings) : List (String × Json) :=
  [("loops", list LoopSummary.toJson f.loops),
    ("integer_ranges", list IntegerRange.toJson f.integerRanges),
    ("range_info", list ConditionRange.toJson f.conditionRanges)]

def uninitializedMember (f : Findings) : String × Json :=
  ("uninitialized_warnings", list UninitializedUse.toJson f.uninitialized)

def switchMember (f : Findings) : String × Json :=
  ("required_switches", list RequiredSwitch.toJson f.switches)

def toJson (f : Findings) : Json :=
  .object (f.simplificationMembers ++ [f.uninitializedMember] ++ f.loopMembers ++ [f.switchMember])

end Findings

/-- The report on a program. -/
def ProgramAnalysis.toJson (a : ProgramAnalysis) : Json :=
  let messages (ds : List Diagnostic) : Json := list Diagnostic.toReportJson ds
  .object (
    [("success", .bool a.isAccepted), ("array_base", natural a.table.base),
      ("symbols", a.table.toJson)] ++
    a.findings.simplificationMembers ++ a.findings.loopMembers ++
    [a.findings.uninitializedMember, a.findings.switchMember, ("warnings", messages a.warnings),
      ("errors", messages (a.errors.map SemanticError.toDiagnostic))])

end LineBasic
