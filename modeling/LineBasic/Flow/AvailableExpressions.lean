import LineBasic.Flow.Effects
import LineBasic.Flow.Solver
import LineBasic.Expr.Value

/-!
# Available expressions

An expression is available at a node if every path computes it and nothing that it reads is written
after that. Expressions are compared by their keys, elements of laid-out arrays by their place in
storage. An expression that is computed where it is available is a common subexpression.
-/

namespace LineBasic

/-- A node and the place of an expression among the candidates of the node. -/
abbrev Site := NodeId × Nat

/-- The keys of the available expressions with the sites that computed them. -/
abbrev AvailableSet := Std.ExtTreeMap String (Std.ExtTreeSet Site)

/-- A subexpression that is worth being computed once. -/
structure Candidate where
  key : String
  text : String
  /-- The place in storage, for an array element. -/
  index : Option String
  /-- The number of candidates in this subexpression, itself included. -/
  span : Nat
  /-- The scalars, and the arrays by their tags, that the subexpression reads. -/
  reads : Std.ExtTreeSet String
  deriving DecidableEq

namespace Candidate

/-- Computing the expression costs something, and it gives the same value every time. -/
def isWorthwhile (e : Expr Float) : Bool :=
  !e.hasSideEffects && e.constant?.isNone && match e with
    | .binary .. | .element .. => true
    | .intrinsic _ args => !args.isEmpty
    | .unary _ operand => !operand.isTrivial
    | _ => false

/-- The place in storage of an element of an array that is laid out. -/
def indexOf? (t : SymbolTable) : Expr Float → Option (String × Expr Float)
  | .element name subscripts => do
    let layout ← t.layout? name.key
    let index ← layout.index? subscripts
    return (name.key, index)
  | _ => none

/-- The candidate for an expression, with `inner` candidates in its operands. -/
def ofExpr (t : SymbolTable) (e : Expr Float) (inner : Nat) : Candidate :=
  let (key, index) := match indexOf? t e with
    | some (name, index) => (name ++ "[" ++ index.canonical ++ "]", some index.canonical)
    | none => (e.key, none)
  { key, text := e.canonical, index, span := inner + 1, reads := .ofList e.readTags }

/-- The candidate for an expression, if it is worthwhile, before those in its operands. -/
def addTo (t : SymbolTable) (e : Expr Float) (inner : List Candidate) : List Candidate :=
  if isWorthwhile e then ofExpr t e inner.length :: inner else inner

mutual

/-- The candidates of an expression, each before those in its operands. -/
def ofTree (t : SymbolTable) : Expr Float → List Candidate
  | .number .. | .string _ | .scalar _ => []
  | .element name subscripts => addTo t (.element name subscripts) (ofTrees t subscripts)
  | .unary op operand => addTo t (.unary op operand) (ofTree t operand)
  | .binary op left right => addTo t (.binary op left right) (ofTree t left ++ ofTree t right)
  | .intrinsic f args => addTo t (.intrinsic f args) (ofTrees t args)
  | .call name args => addTo t (.call name args) (ofTrees t args)

def ofTrees (t : SymbolTable) : List (Expr Float) → List Candidate
  | [] => []
  | e :: rest => ofTree t e ++ ofTrees t rest

end

end Candidate

/-- The candidates and the writes of all nodes. -/
structure CandidateTable where
  candidates : Array (List Candidate)
  /-- What the first candidate of each key reads. -/
  reads : Std.ExtTreeMap String (Std.ExtTreeSet String)
  /-- The scalars and arrays that each node writes. -/
  kills : Array (List String)

/-- An available expression that is computed again. -/
structure Recomputation where
  key : String
  site : Site
  available : Std.ExtTreeSet Site

namespace CandidateTable

def build (effects : Array Effects) (t : SymbolTable) : CandidateTable :=
  let candidates := effects.map fun fx => Candidate.ofTrees t fx.roots
  { candidates
    reads := candidates.toList.flatten.foldl (fun m c => m.insertIfNew c.key c.reads) ∅
    kills := effects.map Effects.writtenTags }

def count (c : CandidateTable) : Nat := c.candidates.toList.flatten.length

/-- The candidates of a node. -/
def ofNode (c : CandidateTable) (id : NodeId) : List Candidate := (c.candidates[id]?).getD []

/-- The candidate at a site. -/
def candidate? (c : CandidateTable) (site : Site) : Option Candidate := (c.ofNode site.1)[site.2]?

/--
Computes candidates one after the other from `position` on, leaving out the next `skip` of them:
what is inside an available expression is not computed again.
-/
def compute (id : NodeId) :
    (skip position : Nat) → List Candidate → AvailableSet → AvailableSet × List Recomputation
  | _, _, [], fact => (fact, [])
  | skip + 1, position, _ :: rest, fact => compute id skip (position + 1) rest fact
  | 0, position, c :: rest, fact =>
    let site := (id, position)
    match fact[c.key]? with
    | some sites =>
      let (final, found) :=
        compute id (c.span - 1) (position + 1) rest (fact.insert c.key (sites.insert site))
      (final, ⟨c.key, site, sites⟩ :: found)
    | none => compute id 0 (position + 1) rest (fact.insert c.key {site})

/-- What is left of a fact when a node has written. -/
def kill (c : CandidateTable) (id : NodeId) (fact : AvailableSet) : AvailableSet :=
  let killed := (c.kills[id]?).getD []
  fact.filter fun key _ => !killed.any fun name => (c.reads[key]?).any fun r => r.contains name

/-- The fact after a node, and the available expressions that the node computes again. -/
def scan (c : CandidateTable) (id : NodeId) (fact : AvailableSet) :
    AvailableSet × List Recomputation :=
  let (computed, found) := compute id 0 0 (c.ofNode id) fact
  (c.kill id computed, found)

end CandidateTable

/-- The keys of both facts with the sites of both. -/
def AvailableSet.meet (a b : AvailableSet) : AvailableSet :=
  a.filterMap fun key sites => (b[key]?).map fun others => sites ∪ others

def availableExpressions (c : CandidateTable) : ForwardAnalysis AvailableSet :=
  { name := "available-expressions"
    atEntry := ∅
    meet := AvailableSet.meet
    transfer := fun id fact => (c.scan id fact).1
    height := 2 * c.count }

/-- An expression that is computed more than once. -/
structure CommonSubexpression where
  expression : String
  index : Option String
  firstLine : Nat
  /-- The lines of the later computations, in the order of the nodes. -/
  laterLines : List Nat
  reads : List String
  deriving DecidableEq, Repr

namespace CommonSubexpression

/-- The place of a record in the report: by line, then by text, then by the later lines. -/
def rank (r : CommonSubexpression) : Nat × String × List Nat :=
  (r.firstLine, r.expression, r.laterLines)

/-- The record for a key that is first computed at `origin`. -/
def ofSites (g : Graph) (c : CandidateTable) (key : String) (origin : Site)
    (sites : Std.ExtTreeSet Site) : CommonSubexpression :=
  let first := c.candidate? origin
  { expression := first.elim "" Candidate.text
    index := first.bind Candidate.index
    firstLine := g.lineOf origin.1
    laterLines := (sites.toList.filter fun s => s != origin).map fun s => g.lineOf s.1
    reads := (c.reads[key]?).elim [] fun r => r.toList }

/-- All the sites that go with a key and a first site. -/
def sitesOf (keyed : List ((String × Site) × Recomputation)) (group : String × Site) :
    Std.ExtTreeSet Site :=
  (keyed.filter fun entry => entry.1 == group).foldl
    (fun sites (_, r) => (sites ∪ r.available).insert r.site) ∅

/-- One record for each key and first site. -/
def assemble (g : Graph) (c : CandidateTable) (found : List Recomputation) :
    List CommonSubexpression :=
  let keyed := found.filterMap fun r => r.available.min?.map fun origin => ((r.key, origin), r)
  let groups := (keyed.map Prod.fst).eraseDups
  let records := groups.map fun group => ofSites g c group.1 group.2 (sitesOf keyed group)
  records.mergeSort fun a b => (compare a.rank b.rank).isLE

/-- The common subexpressions, given the expressions that are available at the nodes. -/
def ofSolution (g : Graph) (c : CandidateTable) (solution : Solution AvailableSet) :
    List CommonSubexpression :=
  assemble g c (g.nodes.toList.flatMap fun n =>
    (solution.before[n.id]?).elim [] fun fact => (c.scan n.id fact).2)

end CommonSubexpression

/-- The common subexpressions of a graph, ordered by line. -/
def findCommonSubexpressions (g : Graph) (effects : Array Effects) (t : SymbolTable) :
    List CommonSubexpression :=
  let c := CandidateTable.build effects t
  CommonSubexpression.ofSolution g c ((availableExpressions c).solve g)

end LineBasic
