import LineBasic.Expr.Value
import LineBasic.Flow.LoopMatching

/-!
# Building control-flow graphs

Statements are numbered (`placed`), the loops are matched, and the edges are listed in an order that
fixes the order of successors and predecessors: first those that a statement has of itself, in the
order of the text, then those of the loops, and last those of `RETURN` and `RESUME`. A jump to a
line that is not there leads to the exit.
-/

namespace LineBasic

/-- A statement with its number, its depth, and the node where control goes after it. -/
structure Placed where
  statement : Statement
  id : NodeId
  depth : Nat
  next : NodeId

mutual

/-- The number of statements in a statement, itself included. -/
def Statement.nodeCount : Statement → Nat
  | .command .. => 1
  | .conditional _ _ onTrue none => 1 + onTrue.nodeCount
  | .conditional _ _ onTrue (some onFalse) => 1 + onTrue.nodeCount + onFalse.nodeCount

def Arm.nodeCount : Arm → Nat
  | .line _ => 0
  | .block statements => nodeCountOfList statements

def nodeCountOfList : List Statement → Nat
  | [] => 0
  | s :: rest => s.nodeCount + nodeCountOfList rest

end

mutual

/-- The statements of a statement, numbered from `id` on. -/
def Statement.placed (id next depth : Nat) : Statement → List Placed
  | .command place body => [⟨.command place body, id, depth, next⟩]
  | .conditional place condition onTrue none =>
    ⟨.conditional place condition onTrue none, id, depth, next⟩ ::
      onTrue.placed (id + 1) next (depth + 1)
  | .conditional place condition onTrue (some onFalse) =>
    ⟨.conditional place condition onTrue (some onFalse), id, depth, next⟩ ::
      (onTrue.placed (id + 1) next (depth + 1) ++
        onFalse.placed (id + 1 + onTrue.nodeCount) next (depth + 1))

def Arm.placed (id next depth : Nat) : Arm → List Placed
  | .line _ => []
  | .block statements => placedList id next depth statements

/-- Statements in a row; after the last one control goes to `next`. -/
def placedList (id next depth : Nat) : List Statement → List Placed
  | [] => []
  | s :: rest =>
    let after := id + s.nodeCount
    s.placed id (if rest.isEmpty then next else after) depth ++ placedList after next depth rest

end

/-- The node that each line is entered by; an empty line is entered at the next one. -/
def lineEntries (id : NodeId) : List ProgramLine → List (Nat × NodeId)
  | [] => []
  | l :: rest =>
    let later := lineEntries (id + nodeCountOfList l.statements) rest
    (l.number, if l.statements.isEmpty then (later.head?.map Prod.snd).getD Graph.exit else id) ::
      later

/-- What the edges of a statement depend on beside the statement itself. -/
structure EdgeContext where
  entries : List (Nat × NodeId)
  forLoops : List ForLoop
  whileLoops : List WhileLoop

namespace EdgeContext

/-- The node that a jump to a line reaches. -/
def entryOf (ctx : EdgeContext) (line : Nat) : NodeId :=
  ((ctx.entries.find? fun (number, _) => number == line).map Prod.snd).getD Graph.exit

/-- The edges that a command has of itself. -/
def commandEdges (ctx : EdgeContext) (id next : NodeId) (c : Command) : List Edge :=
  match c with
  | .goto line => [⟨id, ctx.entryOf line, .jump⟩]
  | .gosub line => [⟨id, ctx.entryOf line, .call⟩]
  | .onGoto _ lines =>
    lines.map (fun line => ⟨id, ctx.entryOf line, .jump⟩) ++ [⟨id, next, .normal⟩]
  | .onGosub _ lines =>
    lines.map (fun line => ⟨id, ctx.entryOf line, .call⟩) ++ [⟨id, next, .normal⟩]
  | .endRun | .stopRun => [⟨id, Graph.exit, .normal⟩]
  | .onError line =>
    ⟨id, next, .normal⟩ :: if line = 0 then [] else [⟨id, ctx.entryOf line, .errorHandler⟩]
  | .resume (.line line) => [⟨id, ctx.entryOf line, .resume⟩]
  | .next _ =>
    if ctx.forLoops.any fun l => l.nextNode == id then [⟨id, next, .loopExit⟩]
    else [⟨id, next, .normal⟩]
  | .wend =>
    if ctx.whileLoops.any fun l => l.wendNode == id then [] else [⟨id, next, .normal⟩]
  | .returnSub | .resume _ => []
  | _ => [⟨id, next, .normal⟩]

/-- The edge into an arm whose first statement would be `first`. -/
def armEdge (ctx : EdgeContext) (id first next : NodeId) (kind : EdgeKind) : Arm → Edge
  | .line line => ⟨id, ctx.entryOf line, kind⟩
  | .block [] => ⟨id, next, kind⟩
  | .block (_ :: _) => ⟨id, first, kind⟩

end EdgeContext

mutual

/-- The edges that a statement and those inside it have of themselves. -/
def Statement.edges (ctx : EdgeContext) (id next : NodeId) : Statement → List Edge
  | .command _ body => ctx.commandEdges id next body
  | .conditional _ _ onTrue none =>
    ctx.armEdge id (id + 1) next .thenArm onTrue :: onTrue.edges ctx (id + 1) next ++
      [⟨id, next, .elseArm⟩]
  | .conditional _ _ onTrue (some onFalse) =>
    let first := id + 1 + onTrue.nodeCount
    ctx.armEdge id (id + 1) next .thenArm onTrue :: onTrue.edges ctx (id + 1) next ++
      ctx.armEdge id first next .elseArm onFalse :: onFalse.edges ctx first next

def Arm.edges (ctx : EdgeContext) (id next : NodeId) : Arm → List Edge
  | .line _ => []
  | .block statements => edgesOfList ctx id next statements

def edgesOfList (ctx : EdgeContext) (id next : NodeId) : List Statement → List Edge
  | [] => []
  | s :: rest =>
    let after := id + s.nodeCount
    s.edges ctx id (if rest.isEmpty then next else after) ++ edgesOfList ctx after next rest

end

/-- A `FOR` with constant bounds that lets its body run at least once. -/
def Command.alwaysIterates : Command → Bool
  | .forLoop _ start stop step =>
    let size := match step with
      | some e => e.constantNumber?
      | none => some 1
    match start.constantNumber?, stop.constantNumber?, size with
    | some start, some stop, some step =>
      if 0 < step then decide (start ≤ stop)
      else if step < 0 then decide (stop ≤ start)
      else true
    | _, _, _ => false
  | _ => false

/-- The nodes to which `RETURN` may lead: those after a `GOSUB`. -/
def returnPoints (placed : List Placed) : List NodeId :=
  (Std.ExtTreeSet.ofList (placed.filterMap fun p => match p.statement.command? with
    | some (.gosub _) | some (.onGosub ..) => some p.next
    | _ => none)).toList

/-- The nodes to which `RESUME` may lead: those after an `ON ERROR` that sets a handler. -/
def resumePoints (placed : List Placed) : List NodeId :=
  (Std.ExtTreeSet.ofList (placed.filterMap fun p => match p.statement.command? with
    | some (.onError line) => if line = 0 then none else some p.next
    | _ => none)).toList

/-- The edges of the loops: back to the body, past it, and out of it. -/
def loopEdges (placed : List Placed) (m : LoopMatching) : List Edge :=
  let at? (id : NodeId) := placed.find? fun p => p.id == id
  let next (id : NodeId) := (at? id).elim Graph.exit Placed.next
  let iterates (id : NodeId) :=
    ((at? id).bind fun p => p.statement.command?).any Command.alwaysIterates
  (m.forLoops.flatMap fun l =>
    ⟨l.nextNode, next l.forNode, .loopBack⟩ ::
      if iterates l.forNode then [] else [⟨l.forNode, next l.nextNode, .loopSkip⟩]) ++
  m.whileLoops.flatMap fun l =>
    [⟨l.whileNode, next l.wendNode, .loopExit⟩, ⟨l.wendNode, l.whileNode, .loopBack⟩]

/-- The edges of a statement that goes on at any of several nodes; without one it leads to the
exit. -/
def leadingEdges (id : NodeId) (kind : EdgeKind) : List NodeId → List Edge
  | [] => [⟨id, Graph.exit, kind⟩]
  | targets => targets.map fun target => ⟨id, target, kind⟩

/-- The edges of `RETURN` and of `RESUME` without a line. -/
def backEdges (placed : List Placed) : List Edge :=
  placed.flatMap fun p => match p.statement.command? with
    | some .returnSub => leadingEdges p.id .back (returnPoints placed)
    | some (.resume .retry) | some (.resume .next) =>
      leadingEdges p.id .resume (resumePoints placed)
    | _ => []

/-- Adds the nodes that can be reached from a queue; every node enters the queue once. -/
def reach (successors : NodeId → List NodeId) :
    Nat → List NodeId → Std.ExtTreeSet NodeId → Std.ExtTreeSet NodeId
  | 0, _, seen => seen
  | _ + 1, [], seen => seen
  | n + 1, id :: queue, seen =>
    let fresh := ((successors id).filter fun target => !seen.contains target).eraseDups
    reach successors n (queue ++ fresh) (seen.insertMany fresh)

namespace Program

/-- The statements of a program, numbered in the order of the text. -/
def placed (p : Program) : List Placed := placedList 2 Graph.exit 0 p.statements

/-- The loops of a program. -/
def matchedLoops (p : Program) : LoopMatching :=
  LoopMatching.ofStatements (p.placed.map fun q => (q.id, q.statement))

def edgeContext (p : Program) : EdgeContext :=
  let loops := p.matchedLoops
  ⟨lineEntries 2 p.lines, loops.forLoops, loops.whileLoops⟩

/-- The edges of the graph of a program, in the order in which they are drawn. -/
def edges (p : Program) : List Edge :=
  ⟨Graph.entry, if p.statements.isEmpty then Graph.exit else 2, .normal⟩ ::
    (edgesOfList p.edgeContext 2 Graph.exit p.statements ++ loopEdges p.placed p.matchedLoops ++
      backEdges p.placed)

end Program

/-- A node with the edges from it and to it among those of a graph. -/
def Node.ofEdges (edges : List Edge) (id : NodeId) (statement : Option Statement)
    (line depth : Nat) (next : NodeId) : Node :=
  { id, statement, line, depth, next
    successors := ((edges.filter fun e => e.source == id).map fun e => (e.target, e.kind)).eraseDups
    predecessors := ((edges.filter fun e => e.target == id).map Edge.source).eraseDups }

/-- The node of a numbered statement. -/
def Placed.node (edges : List Edge) (q : Placed) : Node :=
  .ofEdges edges q.id (some q.statement) q.statement.line q.depth q.next

/-- The control-flow graph of a program. -/
def Graph.build (p : Program) : Graph :=
  let edges := p.edges
  let loops := p.matchedLoops
  let nodes :=
    #[Node.ofEdges edges entry none 0 0 exit, Node.ofEdges edges exit none exitLine 0 exit] ++
      p.placed.map (Placed.node edges)
  let targets (id : NodeId) : List NodeId := (nodes[id]?).elim [] fun n => n.successors.map Prod.fst
  { nodes, entries := lineEntries 2 p.lines, forLoops := loops.forLoops
    whileLoops := loops.whileLoops, issues := loops.issues
    reachable := reach targets nodes.size [entry] {entry} }

end LineBasic
