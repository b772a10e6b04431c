import Std.Data.ExtTreeMap
import Std.Data.ExtTreeSet
import LineBasic.Program.Walk

/-!
# Control-flow graphs

A program's graph has one node for each statement, numbered in the order of the text with the
statements of an arm after their `IF`, and two more nodes for the entry and the exit. A `GOSUB` is
an edge to the subroutine; the edges of `RETURN` lead to every statement after a `GOSUB`.
-/

namespace LineBasic

/-- Pairs are ordered by their first members, then by their second ones. -/
instance pairOrd {α β : Type} [Ord α] [Ord β] : Ord (α × β) := lexOrd

abbrev NodeId := Nat

/-- What a step along an edge is. -/
inductive EdgeKind where
  | normal | thenArm | elseArm | jump | call | back
  | loopBack
  | loopExit
  /-- Past a loop whose body may not run at all. -/
  | loopSkip
  | errorHandler | resume
  deriving DecidableEq, Repr

namespace EdgeKind

def name : EdgeKind → String
  | normal => "Normal"
  | thenArm => "Then"
  | elseArm => "Else"
  | jump => "Jump"
  | call => "Call"
  | back => "Return"
  | loopBack => "LoopBack"
  | loopExit => "LoopExit"
  | loopSkip => "LoopSkip"
  | errorHandler => "ErrorHandler"
  | resume => "Resume"

end EdgeKind

structure Edge where
  source : NodeId
  target : NodeId
  kind : EdgeKind
  deriving DecidableEq, Repr

/-- A `FOR` and the `NEXT` that closes it. -/
structure ForLoop where
  forNode : NodeId
  nextNode : NodeId
  counter : String
  deriving DecidableEq, Repr

/-- The node is in the body, to which the `NEXT` belongs. -/
def ForLoop.contains (l : ForLoop) (id : NodeId) : Bool := l.forNode < id && id ≤ l.nextNode

/-- A `WHILE` and the `WEND` that closes it. -/
structure WhileLoop where
  whileNode : NodeId
  wendNode : NodeId
  deriving DecidableEq, Repr

def WhileLoop.contains (l : WhileLoop) (id : NodeId) : Bool := l.whileNode < id && id ≤ l.wendNode

/-- What is wrong with the nesting of the loops. -/
inductive StructureIssue where
  | nextWithoutFor (node : NodeId)
  | nextMismatch (node : NodeId) (expected found : String)
  | wendWithoutWhile (node : NodeId)
  | unclosedFor (node : NodeId) (counter : String)
  | unclosedWhile (node : NodeId)
  deriving DecidableEq, Repr

structure Node where
  id : NodeId
  /-- `none` for the entry and the exit. -/
  statement : Option Statement
  line : Nat
  /-- The number of arms around the statement. -/
  depth : Nat
  /-- Where control goes when the statement ends normally. -/
  next : NodeId
  successors : List (NodeId × EdgeKind)
  predecessors : List NodeId

/-- The command of a node that stands for one. -/
def Node.command? (n : Node) : Option Command := n.statement.bind Statement.command?

structure Graph where
  /-- The nodes; each stands at its own number. -/
  nodes : Array Node
  /-- The node that is reached by a jump to each program line. -/
  entries : List (Nat × NodeId)
  forLoops : List ForLoop
  whileLoops : List WhileLoop
  issues : List StructureIssue
  reachable : Std.ExtTreeSet NodeId

namespace Graph

def entry : NodeId := 0

def exit : NodeId := 1

/-- The line number of the exit, the largest that there is. -/
def exitLine : Nat := 4294967295

def size (g : Graph) : Nat := g.nodes.size

def isEmpty (g : Graph) : Bool := g.size ≤ 2

def node? (g : Graph) (id : NodeId) : Option Node := g.nodes[id]?

def successors (g : Graph) (id : NodeId) : List (NodeId × EdgeKind) :=
  (g.node? id).elim [] Node.successors

/-- Where control goes when a statement ends normally. -/
def next (g : Graph) (id : NodeId) : NodeId := (g.node? id).elim exit Node.next

def lineOf (g : Graph) (id : NodeId) : Nat := (g.node? id).elim 0 Node.line

def isReachable (g : Graph) (id : NodeId) : Bool := g.reachable.contains id

/-- The node that a jump to a line reaches; `none` if there is no such line. -/
def lineEntry? (g : Graph) (line : Nat) : Option NodeId :=
  (g.entries.find? fun (number, _) => number == line).map Prod.snd

/-- The nodes of statements with their statements. -/
def statements (g : Graph) : List (Node × Statement) :=
  g.nodes.toList.filterMap fun n => n.statement.map fun s => (n, s)

/-- The loops that a `NEXT` closes, in the order in which it closes them. -/
def loopsClosedBy (g : Graph) (id : NodeId) : List ForLoop :=
  g.forLoops.filter fun l => l.nextNode == id

def loopsAround (g : Graph) (id : NodeId) : List ForLoop := g.forLoops.filter fun l => l.contains id

def inAnyLoop (g : Graph) (id : NodeId) : Bool :=
  g.forLoops.any (fun l => l.contains id) || g.whileLoops.any fun l => l.contains id

/-- A node on one line of text. -/
def describe (n : Node) : String :=
  let label := match n.statement with
    | some s => s!"line {n.line} {s.keyword}"
    | none => if n.id = entry then "entry" else "exit"
  let targets := n.successors.map fun (target, kind) => s!"n{target} ({kind.name})"
  s!"n{n.id} [{label}] -> " ++ ", ".intercalate targets ++ "\n"

/-- The graph, one line for each node. -/
def text (g : Graph) : String := String.join (g.nodes.toList.map describe)

end Graph
end LineBasic
