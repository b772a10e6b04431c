import LineBasic.Flow.DefiniteAssignment
import LineBasic.Loop.TripCount

/-!
# Summaries of counted loops

For every reachable `FOR` with its `NEXT`: the bounds, as far as they are constant where the loop is
entered, the expressions of the body that do not change in it, the scalars that follow the counter,
and the subscripts that could be stepped along with it.
-/

namespace LineBasic

/-! ## Constant scalars

A scalar that the whole program writes only once, outside all arms and with a constant, has that
value wherever it is definitely assigned.
-/

/-- The only write to a scalar, which gives it a constant. -/
structure ConstantAssignment where
  line : Nat
  name : String
  value : Float

/-- How often nodes write a scalar. -/
def definitionsOf (name : String) (effects : List Effects) : Nat :=
  (effects.flatMap Effects.defs).count name

/-- The constant assignment at a node. -/
def constantAssignment? (effects : List Effects) (n : Node) : Option ConstantAssignment :=
  match n.command? with
  | some (.assign (.scalar name) value) =>
    if n.depth = 0 ∧ definitionsOf name.key effects = 1 then
      value.constantNumber?.map fun v => ⟨n.line, name.key, v⟩
    else none
  | _ => none

/-- The constant assignments of a graph, in the order of the nodes. -/
def constantAssignments (g : Graph) (effects : Array Effects) : List ConstantAssignment :=
  g.nodes.toList.filterMap (constantAssignment? effects.toList)

/-- The values of the constant scalars. -/
def programConstants (g : Graph) (effects : Array Effects) : Std.ExtTreeMap String Float :=
  (constantAssignments g effects).foldl (fun m c => m.insert c.name c.value) ∅

/-! ## What is found of a loop -/

/-- An expression in a loop that reads nothing that the loop writes. -/
structure LoopInvariant where
  expression : String
  firstLine : Nat
  occurrences : Nat
  /-- Every occurrence is outside all arms of the body, and the body calls no subroutine. -/
  isHoistable : Bool
  deriving DecidableEq, Repr

/-- A scalar that is `multiplier * base + offset` in a loop; the counter itself has no base. -/
structure InductionVariable where
  name : String
  base : Option String
  multiplier : Float
  offset : Float
  line : Nat

/-- A term of a subscript that grows by the same amount in every round of a loop. -/
structure SubscriptReduction where
  line : Nat
  array : String
  term : String
  name : String
  multiplier : Float

structure LoopSummary where
  startLine : Nat
  endLine : Nat
  counter : String
  start : Option Float
  stop : Option Float
  step : Option Float
  tripCount : Option Nat
  /-- The number of counted loops around the loop. -/
  depth : Nat
  callsSubroutine : Bool
  invariants : List LoopInvariant
  inductionVariables : List InductionVariable
  subscriptReductions : List SubscriptReduction

/-- The statements of a program, what they read and write, and the scalars with known values. -/
structure LoopContext where
  graph : Graph
  effects : Array Effects
  constants : Std.ExtTreeMap String Float
  assigned : Solution AssignedSet

namespace LoopContext

variable (ctx : LoopContext)

def effectsAt (id : NodeId) : Effects := (ctx.effects[id]?).getD .none

/-- The value of an expression when control reaches a node. -/
def constantAt? (id : NodeId) (e : Expr Float) : Option Float :=
  (e.evaluate? fun name =>
    if (ctx.assigned.before[id]?).any fun vars => vars.contains name then ctx.constants[name]?
    else none).bind Value.number?

/-- The nodes of the body of a loop. -/
def body (l : ForLoop) : List Node :=
  ctx.graph.nodes.toList.filter fun n => l.contains n.id && n.statement.isSome

/-! ## Invariants -/

/-- An expression in a body, with its line, and whether it is outside all arms of the body. -/
structure Occurrence where
  expr : Expr Float
  line : Nat
  isUnconditional : Bool

/-- Computing the expression costs something, and it reads nothing that is written. -/
def isInvariant (written : List String) (e : Expr Float) : Bool :=
  let isWorthwhile := match e with
    | .binary .. => true
    | .intrinsic _ args => !args.isEmpty
    | .unary _ operand => !operand.isTrivial
    | _ => false
  isWorthwhile && !e.hasSideEffects && e.constant?.isNone &&
    !e.readTags.any fun tag => written.contains tag

/-- The largest invariant expressions of a body, those of each node from right to left. -/
def invariantOccurrences (l : ForLoop) : List Occurrence :=
  let body := ctx.body l
  let written := body.flatMap fun n => (ctx.effectsAt n.id).writtenTags
  let depth := ((ctx.graph.node? l.forNode).map Node.depth).getD 0
  body.flatMap fun n =>
    let parts := (ctx.effectsAt n.id).roots.flatMap fun e => e.largest (isInvariant written)
    parts.reverse.map fun e => ⟨e, n.line, n.depth == depth⟩

/-- The invariants of a body, one for each key, in the order of their first occurrences. -/
def invariants (l : ForLoop) (callsSubroutine : Bool) : List LoopInvariant :=
  let keyed := (ctx.invariantOccurrences l).map fun o => (o.expr.key, o)
  (keyed.map Prod.fst).eraseDups.filterMap fun key =>
    match (keyed.filter fun entry => entry.1 == key).map Prod.snd with
    | [] => none
    | first :: rest =>
      some { expression := first.expr.canonical
             firstLine := rest.foldl (fun line o => min line o.line) first.line
             occurrences := rest.length + 1
             isHoistable := !callsSubroutine && (first :: rest).all Occurrence.isUnconditional }

/-! ## Induction variables -/

/-- `V * c` or `c * V`, as `(V, c)`. -/
def scaled? : Expr Float → Expr Float → Option (String × Float)
  | .scalar name, right => right.number?.map fun c => (name.key, c)
  | left, .scalar name => left.number?.map fun c => (name.key, c)
  | _, _ => none

/-- The multiplier and the offset of `V`, `V * c`, `c * V`, `V + c`, `c + V` or `V - c`. -/
def linearIn? (counter : String) (e : Expr Float) : Option (Float × Float) :=
  let isCounter : Expr Float → Bool
    | .scalar name => name.key == counter
    | _ => false
  match e with
  | .scalar name => if name.key = counter then some (1, 0) else none
  | .binary .mul left right =>
    (scaled? left right).bind fun (name, c) => if name = counter then some (c, 0) else none
  | .binary .add left right =>
    if isCounter left then right.number?.map fun c => (1, c)
    else if isCounter right then left.number?.map fun c => (1, c)
    else none
  | .binary .sub left right =>
    if isCounter left then right.number?.map fun c => (1, -c) else none
  | _ => none

/-- The scalars that a body writes only once, as a linear function of the counter. -/
def derived (l : ForLoop) : List InductionVariable :=
  let body := ctx.body l
  let effects := body.map fun n => ctx.effectsAt n.id
  body.filterMap fun n => match n.command? with
    | some (.assign (.scalar name) value) =>
      if name.key ≠ l.counter ∧ definitionsOf name.key effects = 1 then
        (linearIn? l.counter value).map fun (multiplier, offset) =>
          { name := name.key, base := some l.counter, multiplier, offset, line := n.line }
      else none
    | _ => none

/-! ## Subscripts -/

/-- The subscripts of targets with their arrays, except those of `SWAP`. -/
def targetSubscripts : Command → List (String × Expr Float)
  | .swap .. => []
  | c => c.targets.flatMap fun target => target.subscripts.map fun e => (target.name.key, e)

/-- The roots of a statement that are not among its target subscripts. -/
def otherRoots : Statement → List (Expr Float)
  | .conditional _ condition .. => [condition]
  | .command _ c => match c with
    | .swap .. => c.targets.flatMap Target.subscripts
    | _ => (c.sources.filter Evaluated.isRoot).map Evaluated.expr

/-- The subscripts in a statement with their arrays, those of its targets first. -/
def subscripts (s : Statement) : List (String × Expr Float) :=
  s.command?.elim [] targetSubscripts ++
    (Expr.subtermsFromRightOfList (otherRoots s)).flatMap fun e => match e with
      | .element name subscripts => subscripts.map fun e => (name.key, e)
      | _ => []

/-- The variable and the factor of a term that is stepped: the counter times a number, or a scalar
that is a multiple of the counter. -/
def stepped? (counter : String) (derived : List InductionVariable) (term : Expr Float) :
    Option (String × Float) :=
  match term with
  | .binary .mul left right =>
    (scaled? left right).filter fun (name, c) => name == counter && c != 1
  | .scalar name =>
    (derived.find? fun v => v.name == name.key && v.multiplier != 1).map fun v =>
      (name.key, v.multiplier)
  | _ => none

/-- The stepped terms in the subscripts of a body. -/
def subscriptReductions (l : ForLoop) (derived : List InductionVariable) :
    List SubscriptReduction :=
  (ctx.body l).flatMap fun n => (n.statement.elim [] subscripts).flatMap fun (array, index) =>
    let terms := (index.largest fun e => (stepped? l.counter derived e).isSome).reverse
    terms.filterMap fun term => (stepped? l.counter derived term).map fun (name, multiplier) =>
      { line := n.line, array, term := term.canonical, name, multiplier }

/-! ## Loops -/

/-- The summary of a loop with its bounds. -/
def summary (l : ForLoop) (start stop : Expr Float) (step : Option (Expr Float)) : LoopSummary :=
  let value (e : Expr Float) := ctx.constantAt? l.forNode e
  let first := value start
  let last := value stop
  let size := step.elim (some 1) value
  let callsSubroutine := (ctx.body l).any fun n => n.successors.any fun edge => edge.2 == .call
  let derived := ctx.derived l
  { startLine := ctx.graph.lineOf l.forNode
    endLine := ctx.graph.lineOf l.nextNode
    counter := l.counter
    start := first
    stop := last
    step := size
    tripCount := do Loop.tripCount? (← first) (← last) (← size)
    depth := (ctx.graph.loopsAround l.forNode).length
    callsSubroutine
    invariants := ctx.invariants l callsSubroutine
    inductionVariables :=
      { name := l.counter, base := none, multiplier := 1, offset := 0,
        line := ctx.graph.lineOf l.forNode } :: derived
    subscriptReductions := ctx.subscriptReductions l derived }

/-- The summaries of the reachable loops, in the order in which the loops are closed. -/
def summaries : List LoopSummary :=
  ctx.graph.forLoops.filterMap fun l =>
    match (ctx.graph.node? l.forNode).bind Node.command? with
    | some (.forLoop _ start stop step) =>
      if ctx.graph.isReachable l.forNode then some (ctx.summary l start stop step) else none
    | _ => none

end LoopContext

/-- Loops in the order of their first lines, then of their last ones. -/
def LoopSummary.sort (loops : List LoopSummary) : List LoopSummary :=
  loops.mergeSort fun a b => (compare (a.startLine, a.endLine) (b.startLine, b.endLine)).isLE

/-- The context in which the loops of a graph are summarised. -/
def LoopContext.ofGraph (g : Graph) (effects : Array Effects) : LoopContext :=
  { graph := g, effects, constants := programConstants g effects,
    assigned := (definiteAssignment effects).solve g }

/-- The summaries of the reachable loops of a graph. -/
def analyzeLoops (g : Graph) (effects : Array Effects) : List LoopSummary :=
  LoopSummary.sort (LoopContext.ofGraph g effects).summaries

end LineBasic
