import LineBasic.Flow.Graph

/-!
# Matching loops

`FOR`, `WHILE`, `WEND` and `NEXT` are matched like brackets, in the order of the text. A `NEXT` with
names closes one loop for each of them; if the name belongs to an outer loop, the loops inside it
are given up.
-/

namespace LineBasic

inductive OpenLoop where
  | forLoop (node : NodeId) (counter : String)
  | whileLoop (node : NodeId)
  deriving DecidableEq, Repr

/-- The loop is a `FOR` with this counter. -/
def OpenLoop.counts (counter : String) : OpenLoop → Bool
  | forLoop _ c => c == counter
  | whileLoop _ => false

def OpenLoop.isWhile : OpenLoop → Bool
  | forLoop .. => false
  | whileLoop _ => true

/-- The problem with a loop that is still open at the end. -/
def OpenLoop.unclosed : OpenLoop → StructureIssue
  | forLoop node counter => .unclosedFor node counter
  | whileLoop node => .unclosedWhile node

/-- The state of the matching. -/
structure LoopMatching where
  /-- The open loops, the innermost first. -/
  opened : List OpenLoop
  forLoops : List ForLoop
  whileLoops : List WhileLoop
  issues : List StructureIssue

namespace LoopMatching

def empty : LoopMatching := ⟨[], [], [], []⟩

def report (m : LoopMatching) (issue : StructureIssue) : LoopMatching :=
  { m with issues := m.issues ++ [issue] }

/-- Closes a `FOR` whose outer loops are `outer`. -/
def close (m : LoopMatching) (id node : NodeId) (counter : String) (outer : List OpenLoop) :
    LoopMatching :=
  { m with opened := outer, forLoops := m.forLoops ++ [⟨node, id, counter⟩] }

def wend (m : LoopMatching) (id : NodeId) : LoopMatching :=
  match m.opened with
  | .whileLoop node :: outer =>
    { m with opened := outer, whileLoops := m.whileLoops ++ [⟨node, id⟩] }
  | _ => m.report (.wendWithoutWhile id)

/-- A `NEXT` without a name. -/
def closeInnermost (m : LoopMatching) (id : NodeId) : LoopMatching :=
  match m.opened with
  | .forLoop node counter :: outer => m.close id node counter outer
  | _ => m.report (.nextWithoutFor id)

/-- A `NEXT` for one counter, and whether it closed a loop. -/
def closeNamed (m : LoopMatching) (id : NodeId) (counter : String) : LoopMatching × Bool :=
  let (inner, outer) := m.opened.span fun o => !o.counts counter
  match inner, outer with
  | [], .forLoop node c :: outer => (m.close id node c outer, true)
  | .forLoop _ expected :: _, .forLoop node c :: outer =>
    let m := m.report (.nextMismatch id expected counter)
    if inner.any OpenLoop.isWhile then (m, false) else (m.close id node c outer, true)
  | .forLoop _ expected :: _, _ => (m.report (.nextMismatch id expected counter), false)
  | _, _ => (m.report (.nextWithoutFor id), false)

/-- A `NEXT` for several counters stops at the first that closes nothing. -/
def closeAll (m : LoopMatching) (id : NodeId) : List String → LoopMatching
  | [] => m
  | counter :: rest =>
    let (m, closed) := m.closeNamed id counter
    if closed then closeAll m id rest else m

/-- The state after one more statement. -/
def step (m : LoopMatching) (id : NodeId) (s : Statement) : LoopMatching :=
  match s.command? with
  | some (.forLoop counter ..) => { m with opened := .forLoop id counter.key :: m.opened }
  | some (.whileLoop _) => { m with opened := .whileLoop id :: m.opened }
  | some .wend => m.wend id
  | some (.next []) => m.closeInnermost id
  | some (.next counters) => m.closeAll id (counters.map Name.key)
  | _ => m

/-- The loops of a list of numbered statements; what is open at the end is reported. -/
def ofStatements (statements : List (NodeId × Statement)) : LoopMatching :=
  let m := statements.foldl (fun m (id, s) => m.step id s) empty
  { m with issues := m.issues ++ m.opened.reverse.map OpenLoop.unclosed }

end LoopMatching
end LineBasic
