import LineBasic.Flow.Build
import LineBasic.Proofs.Program.CanonicalSpelling

/-!
# Graphs in the canonical spelling

The graph of a program in the canonical spelling is the graph of the program itself, but for the
spelling of the statements that the nodes stand for (`Graph.build_canonically`). Edges, kinds, loops
and faults are the same.
-/

namespace LineBasic

/-! ## Numbered statements -/

/-- The numbered statement in the canonical spelling. -/
def Placed.canonically (q : Placed) : Placed := { q with statement := q.statement.canonically }

@[simp] theorem isEmpty_canonicalStatements (statements : List Statement) :
    (canonicalStatements statements).isEmpty = statements.isEmpty := by
  cases statements <;> rfl

mutual

@[simp] theorem Statement.nodeCount_canonically :
    (s : Statement) → s.canonically.nodeCount = s.nodeCount
  | .command .. => rfl
  | .conditional _ _ onTrue none => by
    simp only [Statement.canonically, Statement.nodeCount, Arm.nodeCount_canonically onTrue]
  | .conditional _ _ onTrue (some onFalse) => by
    simp only [Statement.canonically, Statement.nodeCount, Arm.nodeCount_canonically onTrue,
      Arm.nodeCount_canonically onFalse]

@[simp] theorem Arm.nodeCount_canonically : (arm : Arm) → arm.canonically.nodeCount = arm.nodeCount
  | .line _ => rfl
  | .block statements => nodeCountOfList_canonically statements

@[simp] theorem nodeCountOfList_canonically : (statements : List Statement) →
    nodeCountOfList (canonicalStatements statements) = nodeCountOfList statements
  | [] => rfl
  | s :: rest => by
    simp only [canonicalStatements, nodeCountOfList, s.nodeCount_canonically,
      nodeCountOfList_canonically rest]

end

mutual

theorem Statement.placed_canonically (id next depth : Nat) : (s : Statement) →
    s.canonically.placed id next depth = (s.placed id next depth).map Placed.canonically
  | .command .. => rfl
  | .conditional _ _ onTrue none => congrArg _ (onTrue.placed_canonically (id + 1) next (depth + 1))
  | .conditional _ _ onTrue (some onFalse) => by
    simp only [Statement.canonically, Statement.placed, Arm.nodeCount_canonically, List.map_cons,
      List.map_append, Arm.placed_canonically _ next (depth + 1) onTrue,
      Arm.placed_canonically _ next (depth + 1) onFalse]
    rfl

theorem Arm.placed_canonically (id next depth : Nat) : (arm : Arm) →
    arm.canonically.placed id next depth = (arm.placed id next depth).map Placed.canonically
  | .line _ => rfl
  | .block statements => placedList_canonically id next depth statements

theorem placedList_canonically (id next depth : Nat) : (statements : List Statement) →
    placedList id next depth (canonicalStatements statements) =
      (placedList id next depth statements).map Placed.canonically
  | [] => rfl
  | s :: rest => by
    simp only [canonicalStatements, placedList, s.nodeCount_canonically,
      isEmpty_canonicalStatements, s.placed_canonically, placedList_canonically _ next depth rest,
      List.map_append]

end

theorem Program.placed_canonically (p : Program) :
    p.canonically.placed = p.placed.map Placed.canonically := by
  rw [placed, statements_canonically, placedList_canonically, placed]

theorem lineEntries_canonically (id : NodeId) (lines : List ProgramLine) :
    lineEntries id (lines.map ProgramLine.canonically) = lineEntries id lines := by
  induction lines generalizing id with
  | nil => rfl
  | cons l rest ih =>
    simp only [List.map_cons, lineEntries, ProgramLine.canonically, nodeCountOfList_canonically,
      isEmpty_canonicalStatements, ih]

/-! ## Loops -/

namespace LoopMatching

theorem step_canonically (m : LoopMatching) (id : NodeId) (s : Statement) :
    m.step id s.canonically = m.step id s := by
  rw [step, step, Statement.command?_canonically]
  cases s.command? with
  | none => rfl
  | some c =>
    cases c with
    | forLoop counter => simp only [Option.map, Command.canonically, Name.key_key]
    | next counters =>
      cases counters with
      | nil => rfl
      | cons counter rest =>
        simp only [Option.map, Command.canonically, List.map_cons, List.map_map, Name.key_key,
          Function.comp_def]
    | _ => rfl

theorem ofStatements_canonically (statements : List (NodeId × Statement)) :
    ofStatements (statements.map (Prod.map id Statement.canonically)) = ofStatements statements := by
  simp only [ofStatements, List.foldl_map, Prod.map, id, step_canonically]

end LoopMatching

namespace Program

theorem matchedLoops_canonically (p : Program) : p.canonically.matchedLoops = p.matchedLoops := by
  have hloops := LoopMatching.ofStatements_canonically (p.placed.map fun q => (q.id, q.statement))
  rw [List.map_map] at hloops
  rw [matchedLoops, placed_canonically, List.map_map]
  exact hloops

theorem edgeContext_canonically (p : Program) : p.canonically.edgeContext = p.edgeContext := by
  rw [edgeContext, matchedLoops_canonically, canonically, lineEntries_canonically]
  rfl

end Program

/-! ## Edges -/

theorem EdgeContext.commandEdges_canonically (ctx : EdgeContext) (id next : NodeId) (c : Command) :
    ctx.commandEdges id next c.canonically = ctx.commandEdges id next c := by
  cases c <;> rfl

theorem EdgeContext.armEdge_canonically (ctx : EdgeContext) (id first next : NodeId)
    (kind : EdgeKind) (arm : Arm) :
    ctx.armEdge id first next kind arm.canonically = ctx.armEdge id first next kind arm := by
  cases arm with
  | line => rfl
  | block statements => cases statements <;> rfl

mutual

theorem Statement.edges_canonically (ctx : EdgeContext) (id next : NodeId) :
    (s : Statement) → s.canonically.edges ctx id next = s.edges ctx id next
  | .command _ body => ctx.commandEdges_canonically id next body
  | .conditional _ _ onTrue none => by
    simp only [Statement.canonically, Statement.edges, ctx.armEdge_canonically,
      Arm.edges_canonically ctx _ next onTrue]
  | .conditional _ _ onTrue (some onFalse) => by
    simp only [Statement.canonically, Statement.edges, ctx.armEdge_canonically,
      Arm.nodeCount_canonically, Arm.edges_canonically ctx _ next onTrue,
      Arm.edges_canonically ctx _ next onFalse]

theorem Arm.edges_canonically (ctx : EdgeContext) (id next : NodeId) :
    (arm : Arm) → arm.canonically.edges ctx id next = arm.edges ctx id next
  | .line _ => rfl
  | .block statements => edgesOfList_canonically ctx id next statements

theorem edgesOfList_canonically (ctx : EdgeContext) (id next : NodeId) :
    (statements : List Statement) →
      edgesOfList ctx id next (canonicalStatements statements) = edgesOfList ctx id next statements
  | [] => rfl
  | s :: rest => by
    simp only [canonicalStatements, edgesOfList, s.nodeCount_canonically,
      isEmpty_canonicalStatements, s.edges_canonically ctx, edgesOfList_canonically ctx _ next rest]

end

@[simp] theorem Command.alwaysIterates_canonically (c : Command) :
    c.canonically.alwaysIterates = c.alwaysIterates := by
  cases c with
  | forLoop counter start stop step =>
    cases step <;>
      simp only [canonically, alwaysIterates, Option.map, Expr.constantNumber?_canonically]
  | _ => rfl

section

variable (placed : List Placed)

theorem loopEdges_canonically (m : LoopMatching) :
    loopEdges (placed.map Placed.canonically) m = loopEdges placed m := by
  have hat (id : NodeId) : (placed.map Placed.canonically).find? (fun q => q.id == id) =
      (placed.find? fun q => q.id == id).map Placed.canonically := List.find?_map ..
  have hnext (id : NodeId) : ((placed.find? fun q => q.id == id).map Placed.canonically).elim
      Graph.exit Placed.next = (placed.find? fun q => q.id == id).elim Graph.exit Placed.next :=
    Option.elim_map ..
  have hcommand (id : NodeId) : (((placed.find? fun q => q.id == id).map Placed.canonically).bind
      fun q => q.statement.command?).any Command.alwaysIterates =
      ((placed.find? fun q => q.id == id).bind fun q => q.statement.command?).any
        Command.alwaysIterates := by
    cases placed.find? fun q => q.id == id with
    | none => rfl
    | some q =>
      simp only [Option.map, Option.bind, Placed.canonically, Statement.command?_canonically]
      cases q.statement.command? with
      | none => rfl
      | some c => exact c.alwaysIterates_canonically
  simp only [loopEdges, hat, hnext, hcommand]

theorem returnPoints_canonically :
    returnPoints (placed.map Placed.canonically) = returnPoints placed := by
  rw [returnPoints, List.filterMap_map, returnPoints]
  congr 3
  funext q
  simp only [Function.comp_def, Placed.canonically, Statement.command?_canonically]
  cases q.statement.command? with
  | none => rfl
  | some c => cases c <;> rfl

theorem resumePoints_canonically :
    resumePoints (placed.map Placed.canonically) = resumePoints placed := by
  rw [resumePoints, List.filterMap_map, resumePoints]
  congr 3
  funext q
  simp only [Function.comp_def, Placed.canonically, Statement.command?_canonically]
  cases q.statement.command? with
  | none => rfl
  | some c => cases c <;> rfl

theorem backEdges_canonically : backEdges (placed.map Placed.canonically) = backEdges placed := by
  rw [backEdges, List.flatMap_map, backEdges]
  congr 1
  funext q
  simp only [Placed.canonically, Statement.command?_canonically, returnPoints_canonically,
    resumePoints_canonically]
  cases q.statement.command? with
  | none => rfl
  | some c => cases c <;> rfl

end

theorem Program.edges_canonically (p : Program) : p.canonically.edges = p.edges := by
  rw [edges, edgeContext_canonically, statements_canonically, isEmpty_canonicalStatements,
    edgesOfList_canonically, placed_canonically, matchedLoops_canonically, loopEdges_canonically,
    backEdges_canonically, edges]

/-! ## The graph -/

/-- The node with its statement in the canonical spelling. -/
def Node.canonically (n : Node) : Node :=
  { n with statement := n.statement.map Statement.canonically }

/-- The graph with its statements in the canonical spelling. -/
def Graph.canonically (g : Graph) : Graph := { g with nodes := g.nodes.map Node.canonically }

@[simp] theorem Node.command?_canonically (n : Node) :
    n.canonically.command? = n.command?.map Command.canonically := by
  unfold command? canonically
  cases n.statement with
  | none => rfl
  | some s => exact s.command?_canonically

namespace Graph

variable (g : Graph) (id : NodeId)

theorem node?_canonically : g.canonically.node? id = (g.node? id).map Node.canonically :=
  Array.getElem?_map

@[simp] theorem successors_canonically : g.canonically.successors id = g.successors id := by
  rw [successors, node?_canonically, Option.elim_map]
  rfl

@[simp] theorem next_canonically : g.canonically.next id = g.next id := by
  rw [next, node?_canonically, Option.elim_map]
  rfl

@[simp] theorem lineOf_canonically : g.canonically.lineOf id = g.lineOf id := by
  rw [lineOf, node?_canonically, Option.elim_map]
  rfl

@[simp] theorem size_canonically : g.canonically.size = g.size := Array.size_map

theorem toList_nodes_canonically :
    g.canonically.nodes.toList = g.nodes.toList.map Node.canonically := Array.toList_map

end Graph

/-- Only the statements of the graph are spelled in another way. -/
theorem Graph.build_canonically (p : Program) :
    build p.canonically = (build p).canonically := by
  have hnode (q : Placed) : q.canonically.node p.edges = (q.node p.edges).canonically := by
    rw [Placed.node, Placed.canonically, Statement.line_canonically]
    rfl
  let front : Array Node :=
    #[.ofEdges p.edges entry none 0 0 exit, .ofEdges p.edges exit none exitLine 0 exit]
  have hnodes : front ++ (p.placed.map Placed.canonically).map (Placed.node p.edges) =
      (front ++ p.placed.map (Placed.node p.edges)).map Node.canonically := by
    apply Array.toList_inj.1
    simp only [Array.toList_appendList, Array.toList_map, List.map_append, List.map_map,
      Function.comp_def, hnode]
    rfl
  have hentries : lineEntries 2 p.canonically.lines = lineEntries 2 p.lines :=
    lineEntries_canonically 2 p.lines
  rw [build, Program.edges_canonically, Program.matchedLoops_canonically,
    Program.placed_canonically, hnodes, hentries, Array.size_map]
  simp only [Array.getElem?_map, Option.elim_map]
  rfl

end LineBasic
