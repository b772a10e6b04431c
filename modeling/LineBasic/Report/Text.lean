import LineBasic.Analysis.Program

/-!
# Reports for reading

The report on a program as a text in sections. A section with nothing to say says so.
-/

namespace LineBasic

namespace Report

/-- A part of a report: a title and the lines below it. -/
structure Section where
  title : String
  lines : List String
  deriving DecidableEq, Repr

def Section.text (s : Section) : String :=
  let lines := if s.lines.isEmpty then ["  (none)"] else s.lines
  "\n" ++ s.title ++ ":\n" ++ String.join (lines.map fun line => line ++ "\n")

def commaList (items : List String) : String := ", ".intercalate items

/-- A number that may be unknown. -/
def numberOr (other : String) (n : Option Float) : String := n.elim other Arithmetic.text

/-! ## Symbols -/

def summary (t : SymbolTable) : List String :=
  let base := t.baseLine.elim "default" fun line => "line " ++ toString line
  ["  Variables: " ++ toString t.scalars.size, "  Arrays: " ++ toString t.arrays.size,
    "  Functions: " ++ toString t.functions.size,
    "  OPTION BASE: " ++ toString t.base ++ " (" ++ base ++ ")"]

def scalar (i : ScalarInfo) : String :=
  "  " ++ i.name.text ++ " (" ++ i.type.label ++ ") first used at line " ++ toString i.firstLine

def array (i : ArrayInfo) : String :=
  let layout := i.layout.elim "" fun l =>
    " flattened to " ++ toString l.size ++ " elements, strides [" ++
      commaList (l.strides.map toString) ++ "]"
  "  " ++ i.name.text ++ "(" ++ commaList (i.dimensions.map toString) ++ ") (" ++ i.type.label ++
    ")" ++ layout ++ if i.dimLine.isSome then "" else " (implicit)"

def function (f : FunctionInfo) : String :=
  "  " ++ f.name.text ++ "(" ++ commaList f.parameters ++ ") = " ++ f.body.canonical ++
    "  [line " ++ toString f.line ++ "]"

/-! ## Expressions -/

def folded (f : FoldedExpression) : String :=
  "  Line " ++ toString f.line ++ ": " ++ f.expression ++ " -> " ++ f.value.text

def reduction (r : ReducedExpression) : String :=
  let identity := r.reduction.identity
  "  Line " ++ toString r.line ++ ": " ++ r.reduction.before ++ " -> " ++ r.reduction.after ++
    " (" ++ identity.label ++ "; " ++ identity.savings ++ ")"

def commonSubexpression (c : CommonSubexpression) : List String :=
  ("  " ++ c.expression ++ ": first at line " ++ toString c.firstLine ++
    ", recomputed at line(s) " ++ commaList (c.laterLines.map toString)) ::
  (c.index.toList.map fun index => "    flattened index: " ++ index) ++
  if c.reads.isEmpty then [] else ["    variables: " ++ commaList c.reads]

def substitution (s : Substitution) : String :=
  "  Line " ++ toString s.line ++ ": " ++ s.name ++ " = " ++ s.expression ++ " (" ++
    toString s.useLines.length ++ " use(s)) " ++
    (if s.canSubstitute then "substitute" else "keep") ++ ": " ++ s.reason

def deadStore (s : Substitution) : String :=
  "  Line " ++ toString s.line ++ ": " ++ s.name ++ " = " ++ s.expression ++ " is never read"

/-! ## Loops and ranges -/

def invariant (i : LoopInvariant) : String :=
  "    invariant: " ++ i.expression ++ " (line " ++ toString i.firstLine ++ ", " ++
    toString i.occurrences ++ "x, " ++
    (if i.isHoistable then "hoistable" else "not hoistable") ++ ")"

/-- A scalar that follows the counter; the counter itself is not listed. -/
def induction? (v : InductionVariable) : Option String :=
  v.base.map fun base =>
    "    induction: " ++ v.name ++ " = " ++ base ++ " * " ++ Arithmetic.text v.multiplier ++
      " + " ++ Arithmetic.text v.offset ++ " (line " ++ toString v.line ++ ")"

def subscriptReduction (r : SubscriptReduction) : String :=
  "    subscript " ++ r.term ++ " in " ++ r.array ++ "() at line " ++ toString r.line ++
    ": step by " ++ Arithmetic.text r.multiplier ++ " instead of multiplying"

def loop (l : LoopSummary) : List String :=
  let trips := l.tripCount.elim "iteration count unknown" fun n => toString n ++ " iterations"
  let depth := if l.depth = 0 then "" else ", nested depth " ++ toString l.depth
  ("  FOR " ++ l.counter ++ " = " ++ numberOr "?" l.start ++ " TO " ++ numberOr "?" l.stop ++
    " STEP " ++ numberOr "?" l.step ++ " (lines " ++ toString l.startLine ++ "-" ++
    toString l.endLine ++ "): " ++ trips ++ depth) ::
  (l.invariants.map invariant ++ l.inductionVariables.filterMap induction? ++
    l.subscriptReductions.map subscriptReduction)

def integerRange (r : IntegerRange) : String :=
  "  " ++ r.name ++ ": " ++ toString r.min ++ ".." ++ toString r.max ++ " (" ++ r.width.text ++ ")"

def conditionRange (r : ConditionRange) : String :=
  "  " ++ r.name ++ " " ++ r.range.text ++ " in " ++ r.context ++
    r.improvement?.elim "" fun improvement => " [" ++ improvement ++ "]"

/-! ## Messages -/

def uninitialized (u : UninitializedUse) : String :=
  "  Line " ++ toString u.line ++ ": " ++ u.name ++ " " ++ u.context

def switch (s : RequiredSwitch) : String :=
  "  " ++ s.switch.text ++ " (first needed at line " ++ toString s.firstLine ++ "): " ++
    s.switch.reason

def message (d : Diagnostic) : String :=
  "  " ++ d.line.elim "" (fun line => "Line " ++ toString line ++ ": ") ++
    d.code.elim "" (fun code => "[" ++ code ++ "] ") ++ d.message

end Report

namespace ProgramAnalysis

/-- The sections of the report, in order. -/
def sections (a : ProgramAnalysis) : List Report.Section :=
  let f := a.findings
  let t := a.table
  [⟨"Symbol Table Summary", Report.summary t⟩,
    ⟨"Variables", t.scalars.values.map Report.scalar ++ t.arrays.values.map Report.array⟩,
    ⟨"Functions", t.functions.values.map Report.function⟩,
    ⟨"Constant Folding", f.folded.map Report.folded⟩,
    ⟨"Strength Reductions", f.reductions.map Report.reduction⟩,
    ⟨"Common Subexpressions", f.commonSubexpressions.flatMap Report.commonSubexpression⟩,
    ⟨"Forward Substitutions",
      (f.substitutions.filter fun s => !s.isDeadStore).map Report.substitution⟩,
    ⟨"Dead Stores", a.deadStores.map Report.deadStore⟩,
    ⟨"Loops", f.loops.flatMap Report.loop⟩,
    ⟨"Integer Ranges", f.integerRanges.map Report.integerRange⟩,
    ⟨"Conditional Ranges", f.conditionRanges.map Report.conditionRange⟩,
    ⟨"Uninitialized Variables", f.uninitialized.map Report.uninitialized⟩,
    ⟨"Required Compilation Switches", f.switches.map Report.switch⟩,
    ⟨"Warnings", a.warnings.map Report.message⟩,
    ⟨"Errors", a.errors.map fun e => Report.message e.toDiagnostic⟩]

/-- The report as a text. -/
def reportText (a : ProgramAnalysis) : String :=
  let errors := a.errors.length
  let verdict := if a.isAccepted then "OK" else s!"FAILED ({errors} error(s))"
  "MBASIC Semantic Analysis Report\n===============================\nResult: " ++ verdict ++ "\n" ++
    String.join (a.sections.map Report.Section.text)

end ProgramAnalysis
end LineBasic
