import LineBasic.Analysis.Pass
import LineBasic.Symbol.Build

/-!
# Analysis of a program

The symbol table is built and all passes run over it. The program is accepted if neither finds an
error.
-/

namespace LineBasic

/-- Everything that is found out about a program. -/
structure ProgramAnalysis where
  /-- Those of the symbol table, then those of the passes. -/
  errors : List SemanticError
  /-- Those of the symbol table, then those of the passes; unassigned scalars are apart. -/
  warnings : List Diagnostic
  table : SymbolTable
  findings : Findings
  result : PassResult
  journal : Journal

namespace Journal

def noteSymbols (t : SymbolTable) (j : Journal) : Journal :=
  let scalars := t.scalars.size
  let arrays := t.arrays.size
  let functions := t.functions.size
  j.note .debug .symbols
    (s!"symbol table: {scalars} variables, {arrays} arrays, {functions} functions, " ++
      s!"base {t.base}")

def noteGraph (g : Graph) (j : Journal) : Journal :=
  let forLoops := g.forLoops.length
  let whileLoops := g.whileLoops.length
  let issues := g.issues.length
  j.note .debug .graph
    (s!"cfg: {g.size} nodes, {forLoops} FOR loops, {whileLoops} WHILE loops, " ++
      s!"{issues} structure issues")

end Journal

/-- Analyses a program; the remarks are added to a journal. -/
def Program.analyze (p : Program) (config : AnalysisConfig) (journal : Journal) : ProgramAnalysis :=
  let build := SymbolTable.build p
  let input := AnalysisInput.ofProgram config build.table p
  let journal := (journal.noteSymbols build.table).noteGraph input.graph
  let (record, result) := (AnalysisRecord.start build.table journal).performAll input Pass.standard
  let errors := build.errors ++ record.errors
  let warnings := build.warnings ++ record.warnings
  let warningCount := warnings.length + record.findings.uninitialized.length
  { errors, warnings, table := record.table, findings := record.findings, result
    journal := record.journal.note .info .analyzer
      s!"analysis finished: {errors.length} errors, {warningCount} warnings" }

namespace ProgramAnalysis

/-- No error was found. -/
def isAccepted (a : ProgramAnalysis) : Bool := a.errors.isEmpty

/-- The errors and all warnings, ordered by line. -/
def diagnostics (a : ProgramAnalysis) : List Diagnostic :=
  Diagnostic.sort (a.errors.map SemanticError.toDiagnostic ++ a.warnings ++
    a.findings.uninitialized.map UninitializedUse.toDiagnostic)

/-- The assignments that nothing reads. -/
def deadStores (a : ProgramAnalysis) : List Substitution :=
  a.findings.substitutions.filter Substitution.isDeadStore

end ProgramAnalysis
end LineBasic
