import LineBasic.Analysis.Source
import LineBasic.CommandLine.Options
import LineBasic.Diagnostic.Format
import LineBasic.Journal.Filter
import LineBasic.Report.Findings
import LineBasic.Report.Text

/-!
# Running a task

What a task prints and how it ends, given the content of its file. Reports and verdicts go to the
standard output; diagnostics, statistics and the journal go to the standard error.
-/

namespace LineBasic

/-- What there is at a path. -/
inductive FileContent where
  | missing
  | unreadable (reason : String)
  | bytes (data : ByteArray)

/-- The text of a file, or why there is none. -/
def FileContent.text (path : String) : FileContent → Except String String
  | missing => .error ("File not found: " ++ path)
  | unreadable reason => .error ("Failed to read file: " ++ reason)
  | bytes data =>
    match String.fromUTF8? data with
    | some text => .ok text
    | none => .error "Failed to read file: stream did not contain valid UTF-8"

/-- How long the stages took, in microseconds. -/
structure Timings where
  parsing : Nat
  analysis : Nat
  deriving DecidableEq, Repr

/-- What a run prints, and its exit code. -/
structure RunOutcome where
  output : String
  errors : String
  exitCode : Nat
  deriving DecidableEq, Repr

namespace RunOutcome

/-- The exit code of a program that was accepted or not. -/
def codeOf (isAccepted : Bool) : Nat := if isAccepted then 0 else 1

/-- A run that could not do its task. -/
def failure (message : String) : RunOutcome := ⟨"", "Error: " ++ message ++ "\n", 2⟩

/-- A run with arguments that cannot be understood. -/
def usage (message : String) : RunOutcome := ⟨"", "error: " ++ message ++ "\n", 2⟩

end RunOutcome

namespace SourceAnalysis

/-- The admitted records of a journal, one on each line. -/
def journalText (a : SourceAnalysis) (filter : LogFilter) (t : Timings) : String :=
  let records := (a.journalAfter t.analysis).records.filter filter.admits
  String.join (records.map fun r => r.text ++ "\n")

def diagnosticsText (a : SourceAnalysis) (isColored : Bool) : String :=
  Diagnostic.formatAll isColored (some a.file) a.diagnostics

def statisticsText (a : SourceAnalysis) (t : Timings) : String :=
  let parsing := t.parsing
  let analysis := t.analysis
  s!"Statistics:\n  Lines:       {a.lines}\n  Statements:  {a.statements}\n" ++
    s!"  Parse time:  {parsing}us\n  Analysis:    {analysis}us\n" ++
    s!"  Errors:      {a.errorCount}\n  Warnings:    {a.warningCount}\n"

/-- The verdict of a check. -/
def verdict (a : SourceAnalysis) : String :=
  let name := a.file.name
  if a.hasErrors then s!"✗ {name}: {a.errorCount} error(s)\n"
  else s!"✓ {name}: OK ({a.lines} lines, {a.warningCount} warning(s))\n"

end SourceAnalysis

/-- A name followed by blanks up to a width. -/
def padded (width : Nat) (name : String) : String :=
  name ++ String.ofList (List.replicate (width - name.length) ' ')

/-- The list of the passes. -/
def passList : String :=
  "mbasic v0.1.0\nSemantic analysis and optimization reports for MBASIC programs\n\n" ++
    "Analysis passes (in order):\n" ++
    String.join (Pass.standard.map fun p =>
      "  " ++ padded 24 p.name ++ " " ++ p.description ++ "\n")

namespace Options

/-- The records that are shown: those down to the debug level if the run is verbose, else those that
a filter admits, by default those down to warnings. Also says what is wrong with the filter. -/
def logFilter (o : Options) (filter : Option String) : LogFilter × List String :=
  if o.isVerbose then (.upTo .debug, [])
  else filter.elim (.upTo .warn, []) LogFilter.read

/-- What is printed about a filter that cannot be understood. -/
def filterWarnings (faults : List String) : String :=
  String.join (faults.map fun fault => "warning: " ++ fault ++ ", ignoring it\n")

/-- The outcome for a file that has been analysed. -/
def report (o : Options) (filter : LogFilter) (a : SourceAnalysis) (t : Timings) : RunOutcome :=
  let journal := a.journalText filter t
  let diagnostics := a.diagnosticsText o.isColored
  let statistics (wanted : Bool) : String := if wanted then a.statisticsText t else ""
  match o.task, a.analysis with
  | .check _ wanted, _ =>
    ⟨a.verdict, journal ++ diagnostics ++ statistics wanted, RunOutcome.codeOf (!a.hasErrors)⟩
  | .analyze _ .text wanted _, some p =>
    ⟨p.reportText ++ "\n", journal ++ diagnostics ++ statistics wanted,
      RunOutcome.codeOf p.isAccepted⟩
  | .analyze _ .json wanted _, some p =>
    ⟨p.toJson.pretty ++ "\n", journal ++ statistics wanted, RunOutcome.codeOf p.isAccepted⟩
  | .analyze .., none => ⟨"", journal ++ diagnostics, RunOutcome.codeOf false⟩
  | .info, _ => ⟨passList, "", 0⟩

/-- The outcome of a task, given what there is at each path. -/
def run (o : Options) (filter : Option String) (read : String → FileContent) (t : Timings) :
    RunOutcome :=
  let (filter, faults) := o.logFilter filter
  let outcome : RunOutcome := match o.task.file? with
    | none => ⟨passList, "", 0⟩
    | some path =>
      match (read path).text path with
      | .error message => RunOutcome.failure message
      | .ok text => o.report filter (SourceFile.analyze ⟨path, text⟩ o.task.config) t
  { outcome with errors := filterWarnings faults ++ outcome.errors }

end Options
end LineBasic
