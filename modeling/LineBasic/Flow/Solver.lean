import LineBasic.Flow.Build

/-!
# Forward dataflow over call strings

Facts flow along the edges of a graph until nothing changes. They are kept apart by the innermost
calls that are active (`CallString`): a `GOSUB` adds its node, and a `RETURN` takes it off again and
goes on after that node only. A string holds at most `callStringLimit` calls; a `RETURN` with none
left follows all its edges. Nodes are visited in the order in which their facts changed.
-/

namespace LineBasic

/-- Active calls, the innermost first. -/
abbrev CallString := List NodeId

/-- A node together with the calls under which it is reached. -/
abbrev ContextNode := NodeId × CallString

instance contextNodeTransOrd : Std.TransOrd ContextNode := inferInstance

/-- The number of calls that are remembered. -/
def callStringLimit : Nat := 4

/-- The steps from a node under a call string, each with the kind of its edge. -/
def Graph.contextSteps (g : Graph) (at' : ContextNode) : List (EdgeKind × ContextNode) :=
  match g.node? at'.1 with
  | none => []
  | some n =>
    match n.command?, at'.2 with
    | some .returnSub, site :: outer => [(.back, g.next site, outer)]
    | _, calls => n.successors.map fun (target, kind) =>
      (kind, target, if kind = .call then (at'.1 :: calls).take callStringLimit else calls)

/-- Where control goes from a node under a call string. -/
def Graph.contextSuccessors (g : Graph) (at' : ContextNode) : List ContextNode :=
  (g.contextSteps at').map Prod.snd

/-- A forward dataflow problem with facts of type `φ`. -/
structure ForwardAnalysis (φ : Type) where
  name : String
  /-- What holds before the program starts. -/
  atEntry : φ
  /-- What is left of two facts where paths join. -/
  meet : φ → φ → φ
  /-- What holds after a node, given what holds before it. -/
  transfer : NodeId → φ → φ
  /-- A bound on the number of changes of a fact by meets with other facts. -/
  height : Nat

/-- The facts at every node, each the meet of those under all call strings. -/
structure Solution (φ : Type) where
  /-- Nodes that cannot be reached have no fact. -/
  before : Std.ExtTreeMap NodeId φ
  after : Std.ExtTreeMap NodeId φ
  /-- The number of visits until nothing changed. -/
  visits : Nat
  /-- The number of call strings. -/
  contexts : Nat

/-- The state of the iteration. -/
structure SolverState (φ : Type) where
  inputs : Std.ExtTreeMap ContextNode φ
  outputs : Std.ExtTreeMap ContextNode φ
  /-- The nodes to visit, each once, the next one first. -/
  queue : List ContextNode
  visits : Nat

namespace ForwardAnalysis

variable {φ : Type} [BEq φ] (a : ForwardAnalysis φ)

/-- Before the first visit only the entry has a fact. -/
def start : SolverState φ :=
  { inputs := (∅ : Std.ExtTreeMap ContextNode φ).insert (Graph.entry, []) a.atEntry
    outputs := ∅
    queue := [(Graph.entry, [])]
    visits := 0 }

/-- Lets a fact flow into a node, which is queued if its own fact changes. -/
def flow (output : φ) (s : SolverState φ) (target : ContextNode) : SolverState φ :=
  let old := s.inputs[target]?
  let merged := old.elim output fun fact => a.meet fact output
  if old == some merged then s
  else
    { s with
      inputs := s.inputs.insert target merged
      queue := if s.queue.contains target then s.queue else s.queue ++ [target] }

/-- One visit: nothing flows on where the fact after the node is what it was before. -/
def visit (g : Graph) (key : ContextNode) (s : SolverState φ) : SolverState φ :=
  let s := { s with visits := s.visits + 1 }
  match s.inputs[key]? with
  | none => s
  | some input =>
    let output := a.transfer key.1 input
    if s.outputs[key]? == some output then s
    else
      let s := (g.contextSuccessors key).foldl (a.flow output) s
      { s with outputs := s.outputs.insert key output }

/-- At most `n` visits; ends when the queue is empty. -/
def iterate (g : Graph) : Nat → SolverState φ → SolverState φ
  | 0, s => s
  | n + 1, s =>
    match s.queue with
    | [] => s
    | key :: rest => iterate g n (a.visit g key { s with queue := rest })

/-- More visits than the iteration can take: every node under every call string, each fact changing
as often as it can. -/
def visitBound (g : Graph) : Nat :=
  g.size * Nat.pow (g.size + 1) callStringLimit * (a.height + 2) + 1

/-- Meets the fact of a node under one call string with those under others. -/
def mergeFact (merged : Std.ExtTreeMap NodeId φ) (entry : ContextNode × φ) :
    Std.ExtTreeMap NodeId φ :=
  merged.alter entry.1.1 fun old => some (old.elim entry.2 fun other => a.meet other entry.2)

/-- The meets of the facts that each node has under its call strings. -/
def overContexts (facts : Std.ExtTreeMap ContextNode φ) : Std.ExtTreeMap NodeId φ :=
  facts.toList.foldl a.mergeFact ∅

/-- The state in which nothing changes any more. -/
def fixpoint (g : Graph) : SolverState φ := a.iterate g (a.visitBound g) a.start

/-- The facts that hold at the nodes of a graph. -/
def solve (g : Graph) : Solution φ :=
  let final := a.fixpoint g
  { before := a.overContexts final.inputs
    after := a.overContexts final.outputs
    visits := final.visits
    contexts := (final.inputs.keys.map Prod.snd).eraseDups.length }

end ForwardAnalysis
end LineBasic
