import LineBasic.Analysis.Program
import LineBasic.Grammar.Program

/-!
# Analysis of a text

A text that can be read as a program is analysed. One that cannot has a diagnostic for every line
that is no program line.
-/

namespace LineBasic

/-- A text and the program that it is read as. -/
structure ParsedSource where
  file : SourceFile
  program : Except (List Diagnostic) Program

/-- Reads a text. -/
def SourceFile.parsed (file : SourceFile) : ParsedSource :=
  { file
    program := match Program.parse file.content with
      | .ok p => .ok p
      | .error faults => .error (faults.map LineFault.toDiagnostic) }

/-- Everything that is found out about a text. -/
structure SourceAnalysis where
  file : SourceFile
  /-- Ordered by line. -/
  diagnostics : List Diagnostic
  /-- Missing if the text could not be read. -/
  analysis : Option ProgramAnalysis
  /-- The number of program lines. -/
  lines : Nat
  /-- The number of statements, those inside arms included. -/
  statements : Nat
  warningCount : Nat
  journal : Journal

namespace SourceAnalysis

def errorCount (a : SourceAnalysis) : Nat := (a.diagnostics.filter Diagnostic.isError).length

def hasErrors (a : SourceAnalysis) : Bool := Diagnostic.hasErrors a.diagnostics

/-- The journal after an analysis that took a number of microseconds. -/
def journalAfter (a : SourceAnalysis) (microseconds : Nat) : Journal :=
  let name := a.file.name
  a.analysis.elim a.journal fun p =>
    let success := p.isAccepted
    a.journal.note .debug .pipeline
      (s!"{name}: success={success}, {a.errorCount} errors, " ++
        s!"{a.warningCount} warnings in {microseconds}us")

end SourceAnalysis

/-- Analyses a text that was read. -/
def ParsedSource.analyze (s : ParsedSource) (config : AnalysisConfig) : SourceAnalysis :=
  let name := s.file.name
  let journal := Journal.empty.note .info .pipeline s!"parsing {name}"
  match s.program with
  | .error diagnostics =>
    let errors := (diagnostics.filter Diagnostic.isError).length
    { file := s.file, diagnostics, analysis := none, lines := 0, statements := 0, warningCount := 0
      journal := journal.note .debug .pipeline s!"{name}: {errors} parse errors" }
  | .ok p =>
    let lines := p.lines.length
    let journal := journal.note .info .pipeline s!"analyzing {name} ({lines} lines)"
    let analysis := p.analyze config journal
    let diagnostics := analysis.diagnostics
    { file := s.file, diagnostics, analysis := some analysis, lines
      statements := p.allStatements.length
      warningCount := (diagnostics.filter Diagnostic.isWarning).length
      journal := analysis.journal }

/-- Reads and analyses a text. -/
def SourceFile.analyze (file : SourceFile) (config : AnalysisConfig) : SourceAnalysis :=
  file.parsed.analyze config

end LineBasic
