import LineBasic.Analysis.Config
import LineBasic.Analysis.Findings
import LineBasic.Journal.Record

/-!
# Passes

A pass is one analysis of a program. All passes read the same input and the symbol table in the state
in which the passes before them have left it. Only integer ranges are written to the table, and no
pass reads them.
-/

namespace LineBasic

/-- What every pass reads. -/
structure AnalysisInput where
  program : Program
  config : AnalysisConfig
  table : SymbolTable
  graph : Graph
  effects : Array Effects

/-- The input for a program whose symbol table is known. -/
def AnalysisInput.ofProgram (config : AnalysisConfig) (table : SymbolTable) (p : Program) :
    AnalysisInput :=
  let graph := Graph.build p
  { program := p, config, table, graph, effects := graph.effects table }

inductive Pass where
  | validation | constantFolding | strengthReduction | commonSubexpressions | forwardSubstitution
  | uninitializedVariables | loopAnalysis | integerRange | valueRange
  deriving DecidableEq, Repr

namespace Pass

/-- All passes in the order in which they run. -/
def standard : List Pass :=
  [validation, constantFolding, strengthReduction, commonSubexpressions, forwardSubstitution,
    uninitializedVariables, loopAnalysis, integerRange, valueRange]

def name : Pass → String
  | validation => "validation"
  | constantFolding => "constant-folding"
  | strengthReduction => "strength-reduction"
  | commonSubexpressions => "common-subexpressions"
  | forwardSubstitution => "forward-substitution"
  | uninitializedVariables => "uninitialized-variables"
  | loopAnalysis => "loop-analysis"
  | integerRange => "integer-range"
  | valueRange => "value-range"

def ofName? (s : String) : Option Pass := standard.find? fun p => p.name == s

/-- What the pass looks for, in words. -/
def description : Pass → String
  | validation => "line targets, loop nesting, unsupported statements, GOSUB depth"
  | constantFolding => "literal subexpressions evaluated at compile time"
  | strengthReduction => "algebraic and boolean identities"
  | commonSubexpressions => "repeated computations across branches"
  | forwardSubstitution => "single-use temporaries and dead stores"
  | uninitializedVariables => "reads before definite assignment"
  | loopAnalysis => "trip counts, invariants, induction variables"
  | integerRange => "8/16/32-bit widths for integer scalars"
  | valueRange => "ranges learned from IF conditions"

/-- The configuration asks for the pass. -/
def isEnabled (config : AnalysisConfig) : Pass → Bool
  | validation | constantFolding | valueRange => true
  | strengthReduction => config.strengthReduction
  | commonSubexpressions => config.commonSubexpressions
  | forwardSubstitution => config.forwardSubstitution
  | uninitializedVariables => config.uninitialized
  | loopAnalysis => config.loops
  | integerRange => config.integerRanges

end Pass

/-! ## Remarks on the course of a pass -/

namespace Journal

/-- A remark on a fixpoint that was found. -/
def noteSolution {φ : Type} (a : ForwardAnalysis φ) (g : Graph) (s : Solution φ) (j : Journal) :
    Journal :=
  j.note .debug .dataflow
    s!"{a.name}: fixpoint after {s.visits} visits over {g.size} nodes in {s.contexts} call contexts"

/-- Remarks on a list of things, one after the other. -/
def noteEach {α : Type} (remark : α → Journal → Journal) (items : List α) (j : Journal) : Journal :=
  items.foldl (fun j item => remark item j) j

/-- A remark on every reduction, in the order in which the reductions of an expression are
finished. -/
def noteReductions (p : Program) (boolean : Bool) (j : Journal) : Journal :=
  j.noteEach (fun (line, e) j =>
    j.noteEach (fun r j =>
      j.noteAt line .trace .strengthReduction
        (r.before ++ " -> " ++ r.after ++ " (" ++ r.identity.label ++ ")"))
      (Reduction.completionOrder (Expr.reduce boolean e).2)) p.roots

def noteSubstitutions (found : List Substitution) (j : Journal) : Journal :=
  let substitutable := (found.filter Substitution.canSubstitute).length
  let deadStores := (found.filter Substitution.isDeadStore).length
  let candidates := found.length
  j.note .debug .forwardSubstitution
    (s!"forward substitution: {candidates} candidates, {substitutable} substitutable, " ++
      s!"{deadStores} dead stores")

def noteConstant (c : ConstantAssignment) (j : Journal) : Journal :=
  j.noteAt c.line .trace .loopAnalysis
    (c.name ++ " is constant " ++ Decimal.Style.listing.write c.value)

/-- A remark on every scalar that follows the counter of a loop. -/
def noteLoop (l : LoopSummary) (j : Journal) : Journal :=
  j.noteEach (fun v j => v.base.elim j fun base =>
    j.noteAt v.line .trace .loopAnalysis (v.name ++ " derived from " ++ base)) l.inductionVariables

def noteCondition (r : ConditionRange) (j : Journal) : Journal :=
  if r.range.isEmpty then
    j.noteAt r.line .debug .valueRange (r.armWord ++ " arm is unreachable for " ++ r.name)
  else j

end Journal

/-! ## Running passes -/

namespace AnalysisInput

/-- The errors, the warnings and the switches of the whole program. -/
def checks (input : AnalysisInput) (nesting : CallNesting) : Contribution :=
  let g := input.graph
  let errors := input.program.referenceErrors input.table ++ g.structureErrors
  let byLine := errors.mergeSort fun a b => (compare a.line b.line).isLE
  .checks byLine
    (g.structureWarnings ++ nesting.warnings input.config.maxCallDepth ++
      input.program.unreachableWarnings g)
    input.program.requiredSwitches

/-- What a pass contributes, and its remarks. -/
def contribution (input : AnalysisInput) : Pass → Contribution × (Journal → Journal)
  | .validation =>
    let nesting := CallNesting.ofGraph input.graph
    (input.checks nesting, fun j =>
      j.note .debug .validation s!"GOSUB nesting depth {nesting.depth}")
  | .constantFolding => (.folded input.program.foldedExpressions, id)
  | .strengthReduction =>
    let boolean := input.config.booleanRules
    (.reductions (input.program.reductions boolean), Journal.noteReductions input.program boolean)
  | .commonSubexpressions =>
    let candidates := CandidateTable.build input.effects input.table
    let problem := availableExpressions candidates
    let solution := problem.solve input.graph
    let found := CommonSubexpression.ofSolution input.graph candidates solution
    (.commonSubexpressions found, fun j =>
      (j.note .trace .commonSubexpressions s!"cse: {candidates.count} candidate subexpressions"
        ).noteSolution problem input.graph solution)
  | .forwardSubstitution =>
    let problem := reachingDefinitions input.effects
    let solution := problem.solve input.graph
    let found := Substitution.ofSolution input.graph input.effects solution
    (.substitutions found, fun j =>
      (j.noteSolution problem input.graph solution).noteSubstitutions found)
  | .uninitializedVariables =>
    let problem := definiteAssignment input.effects
    let solution := problem.solve input.graph
    let found := UninitializedUse.ofSolution input.graph input.effects solution
    (.uninitialized found, fun j =>
      (j.noteSolution problem input.graph solution).noteEach (fun u j =>
        j.noteAt u.line .trace .uninitialized (u.name ++ " " ++ u.context ++ " before assignment"))
        found)
  | .loopAnalysis =>
    let ctx := LoopContext.ofGraph input.graph input.effects
    let found := ctx.summaries
    let constants := constantAssignments input.graph input.effects
    let problem := definiteAssignment input.effects
    (.loops (LoopSummary.sort found), fun j =>
      ((j.noteEach Journal.noteConstant constants).noteSolution problem input.graph
        ctx.assigned).noteEach Journal.noteLoop found)
  | .integerRange =>
    let inferred := inferIntegerRanges input.graph input.table input.config.maxRangeRounds
    (.integerRanges inferred.ranges, Journal.noteEach (fun count j =>
      j.note .debug .integerRange s!"integer ranges: {count} variables did not converge")
      inferred.givenUp)
  | .valueRange =>
    let found := input.program.conditionRanges
    (.conditionRanges found, Journal.noteEach Journal.noteCondition found)

end AnalysisInput

/-- Counts of what passes have found. -/
structure PassResult where
  findings : Nat
  statistics : Std.ExtTreeMap String Nat

namespace PassResult

def empty : PassResult := ⟨0, ∅⟩

/-- Adds to one of the counts. -/
def add (r : PassResult) (key : String) (n : Nat) : PassResult :=
  { r with statistics := r.statistics.alter key fun old => some (old.getD 0 + n) }

/-- The counts of two runs together. -/
def combine (a b : PassResult) : PassResult :=
  b.statistics.toList.foldl (fun r (key, n) => r.add key n)
    { a with findings := a.findings + b.findings }

/-- The counts of one run of a pass, whose name is always among them. -/
def ofContribution (pass : Pass) (c : Contribution) : PassResult :=
  let counted : PassResult := { empty with findings := c.count }
  (c.statistics.foldl (fun r (key, n) => r.add key n) counted).add pass.name 0

end PassResult

/-- What the passes have found so far. -/
structure AnalysisRecord where
  /-- The symbol table with the integer ranges that were found. -/
  table : SymbolTable
  errors : List SemanticError
  warnings : List Diagnostic
  findings : Findings
  journal : Journal

namespace AnalysisRecord

def start (table : SymbolTable) (journal : Journal) : AnalysisRecord :=
  ⟨table, [], [], {}, journal⟩

/-- Adds what a pass found; folded and reduced expressions join those of earlier runs. -/
def add (r : AnalysisRecord) (c : Contribution) : AnalysisRecord :=
  match c with
  | .checks errors warnings switches =>
    { r with
      errors := r.errors ++ errors
      warnings := r.warnings ++ warnings
      findings := { r.findings with switches } }
  | .folded found => { r with findings := { r.findings with folded := r.findings.folded ++ found } }
  | .reductions found =>
    { r with findings := { r.findings with reductions := r.findings.reductions ++ found } }
  | .commonSubexpressions found =>
    { r with findings := { r.findings with commonSubexpressions := found } }
  | .substitutions found => { r with findings := { r.findings with substitutions := found } }
  | .uninitialized found => { r with findings := { r.findings with uninitialized := found } }
  | .loops found => { r with findings := { r.findings with loops := found } }
  | .integerRanges found =>
    { r with
      table := r.table.withRanges found
      findings := { r.findings with integerRanges := found } }
  | .conditionRanges found => { r with findings := { r.findings with conditionRanges := found } }

/-- Runs a pass over the table of the record, if the configuration asks for it. -/
def perform (input : AnalysisInput) (r : AnalysisRecord) (pass : Pass) :
    AnalysisRecord × PassResult :=
  if pass.isEnabled input.config then
    let (c, remarks) := { input with table := r.table }.contribution pass
    let journal := remarks (r.journal.note .info .passManager s!"running pass {pass.name}")
    let journal := journal.note .debug .passManager s!"{pass.name}: {c.count} findings"
    ({ r.add c with journal }, .ofContribution pass c)
  else
    let journal := r.journal.note .debug .passManager s!"skipping disabled pass {pass.name}"
    ({ r with journal }, .empty)

/-- Runs passes one after the other. -/
def performAll (input : AnalysisInput) (r : AnalysisRecord) (passes : List Pass) :
    AnalysisRecord × PassResult :=
  passes.foldl (fun (r, total) pass =>
    let (r, result) := r.perform input pass
    (r, total.combine result)) (r, .empty)

end AnalysisRecord
end LineBasic
