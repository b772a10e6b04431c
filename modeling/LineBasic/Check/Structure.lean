import LineBasic.Error.Semantic
import LineBasic.Flow.Graph

/-!
# Structure

Faults in the nesting of loops, and lines that no path reaches.
-/

namespace LineBasic

/-- A warning that belongs to a line. -/
def Diagnostic.warning (line : Nat) (message : String) : Diagnostic :=
  { severity := .warning, message, line := some line }

namespace StructureIssue

/-- The error that a fault is; loops that are not closed are none. -/
def toError? (g : Graph) : StructureIssue → Option SemanticError
  | nextWithoutFor node => some (.onLine (g.lineOf node) .nextWithoutFor)
  | nextMismatch node expected found =>
    some (.onLine (g.lineOf node) (.nextMismatch expected found))
  | wendWithoutWhile node => some (.onLine (g.lineOf node) .wendWithoutWhile)
  | unclosedFor .. | unclosedWhile _ => none

/-- The warning for a loop that is not closed. -/
def toWarning? (g : Graph) : StructureIssue → Option Diagnostic
  | unclosedFor node counter =>
    some (.warning (g.lineOf node) s!"FOR {counter} has no matching NEXT")
  | unclosedWhile node => some (.warning (g.lineOf node) "WHILE has no matching WEND")
  | nextWithoutFor _ | nextMismatch .. | wendWithoutWhile _ => none

end StructureIssue

namespace Graph

def structureErrors (g : Graph) : List SemanticError :=
  g.issues.filterMap (StructureIssue.toError? g)

def structureWarnings (g : Graph) : List Diagnostic :=
  g.issues.filterMap (StructureIssue.toWarning? g)

end Graph

/-- Control has to reach the statement for it to have an effect. -/
def Statement.isExecutable : Statement → Bool
  | command _ body => match body with
    | .remark _ | .data _ | .defFn .. | .defType .. | .optionBase _ => false
    | _ => true
  | conditional .. => true

/-- The line has something to execute, and no path from the entry reaches it. -/
def Graph.isDeadLine (g : Graph) (l : ProgramLine) : Bool :=
  l.statements.any Statement.isExecutable &&
    (g.lineEntry? l.number).any fun id => !g.isReachable id

/-- The first and the last line of every run of dead lines, `current` being the open run. -/
def Graph.deadRuns (g : Graph) (current : Option (Nat × Nat)) : List ProgramLine → List (Nat × Nat)
  | [] => current.toList
  | l :: rest =>
    if g.isDeadLine l then g.deadRuns (some ((current.map Prod.fst).getD l.number, l.number)) rest
    else current.toList ++ g.deadRuns none rest

/-- A warning for every run of lines that no path reaches. -/
def Program.unreachableWarnings (p : Program) (g : Graph) : List Diagnostic :=
  (g.deadRuns none p.lines).map fun (first, last) =>
    .warning first
      (if first = last then s!"Line {first} is unreachable"
      else s!"Lines {first}-{last} are unreachable")

end LineBasic
