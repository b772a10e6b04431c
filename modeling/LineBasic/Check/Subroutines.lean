import LineBasic.Check.Structure

/-!
# Nesting of subroutines

Every line that a `GOSUB` goes to begins a subroutine, which calls others until it returns. The
depth of a subroutine is the length of the longest chain of calls from it, calls of subroutines that
are still active left out; these make the program recursive.
-/

namespace LineBasic

/-- A call of a subroutine by its first line. -/
structure CallSite where
  line : Nat
  target : Nat
  deriving DecidableEq, Repr

/-- A list without elements that are equal to the one before them. -/
def withoutRepeats {α : Type} [DecidableEq α] : List α → List α
  | [] => []
  | [a] => [a]
  | a :: b :: rest => if a = b then withoutRepeats (b :: rest) else a :: withoutRepeats (b :: rest)

namespace Graph

/-- The calls along the edges of a node. -/
def callsAt (g : Graph) (n : Node) : List CallSite :=
  n.successors.filterMap fun (target, kind) =>
    if kind = .call then some ⟨n.line, g.lineOf target⟩ else none

/-- Where control goes from a node without leaving the subroutine: calls come back. -/
def localSuccessors (n : Node) : List NodeId :=
  match n.command? with
  | some .returnSub => []
  | _ => n.successors.filterMap fun (target, kind) => match kind with
    | .call => some n.next
    | .back => none
    | _ => some target

/-- The calls of a subroutine, the nodes of which are taken from a queue, each once. -/
def callsFromQueue (g : Graph) : Nat → List NodeId → Std.ExtTreeSet NodeId → List CallSite
  | 0, _, _ => []
  | _ + 1, [], _ => []
  | n + 1, id :: queue, seen =>
    if seen.contains id then g.callsFromQueue n queue seen
    else match g.node? id with
      | none => g.callsFromQueue n queue (seen.insert id)
      | some node =>
        g.callsAt node ++ g.callsFromQueue n (queue ++ localSuccessors node) (seen.insert id)

/-- More than the number of times that a node enters the queue. -/
def callsBound (g : Graph) : Nat := (g.nodes.toList.flatMap Node.successors).length + 2

/-- The calls that are executed from a node on until its subroutine returns. -/
def callsFrom (g : Graph) (start : NodeId) : List CallSite :=
  withoutRepeats (g.callsFromQueue g.callsBound [start] ∅)

end Graph

/-- What is known of a subroutine during the search. -/
inductive CallProgress where
  | active
  | finished (depth : Nat)
  deriving DecidableEq, Repr

/-- The state of the search. -/
structure CallSearch where
  progress : Std.ExtTreeMap Nat CallProgress
  /-- The calls of subroutines that were active, in the order in which they were met. -/
  recursive : List CallSite

namespace CallSearch

def start : CallSearch := ⟨∅, []⟩

/--
The depth of the subroutine at a line, with at most `n` subroutines active. A line that is not there
begins none.
-/
def depth (g : Graph) : Nat → Nat → CallSearch → Nat × CallSearch
  | 0, _, s => (0, s)
  | n + 1, line, s =>
    match s.progress[line]?, g.lineEntry? line with
    | some (.finished d), _ => (d, s)
    | some .active, _ | none, none => (0, s)
    | none, some entry =>
      let entered := { s with progress := s.progress.insert line .active }
      let (deepest, s) := (g.callsFrom entry).foldl (fun (deepest, s) call =>
        if s.progress[call.target]? = some .active then
          (deepest, { s with recursive := s.recursive ++ [call] })
        else
          let (d, s) := depth g n call.target s
          (max deepest d, s)) (0, entered)
      (deepest + 1, { s with progress := s.progress.insert line (.finished (deepest + 1)) })

/-- Searches from the calls of the main program, and keeps the first deepest one. -/
def overCalls (g : Graph) : List CallSite → Option (Nat × CallSite) → CallSearch →
    Option (Nat × CallSite) × CallSearch
  | [], deepest, s => (deepest, s)
  | call :: rest, deepest, s =>
    let (d, s) := depth g (g.entries.length + 1) call.target s
    let isDeeper := deepest.all fun old => old.1 < d
    overCalls g rest (if isDeeper then some (d, call) else deepest) s

end CallSearch

/-- How deep subroutines are nested. -/
structure CallNesting where
  /-- The depth below the main program, and the call in the main program that leads there. -/
  deepest : Option (Nat × CallSite)
  /-- The calls that can repeat without limit, each once, in the order of the lines. -/
  recursive : List CallSite

namespace CallNesting

def ofGraph (g : Graph) : CallNesting :=
  let (deepest, s) := CallSearch.overCalls g (g.callsFrom Graph.entry) none .start
  let sorted := s.recursive.mergeSort fun a b =>
    (compare (a.line, a.target) (b.line, b.target)).isLE
  { deepest, recursive := withoutRepeats sorted }

def depth (c : CallNesting) : Nat := c.deepest.elim 0 Prod.fst

/-- The warnings for recursive calls, and for a nesting that is deeper than `limit`. -/
def warnings (c : CallNesting) (limit : Nat) : List Diagnostic :=
  let recursive := c.recursive.map fun call =>
    let target := call.target
    { Diagnostic.warning call.line s!"Recursive GOSUB {target}" with
      notes := [s!"the subroutine at line {target} can call itself again before it returns"]
      help := [s!"recursion depth is limited to {limit} nested GOSUBs"] }
  let tooDeep := (c.deepest.filter fun d => limit < d.1).map fun (depth, call) =>
    Diagnostic.warning call.line s!"GOSUB nesting depth {depth} exceeds the limit of {limit}"
  recursive ++ tooDeep.toList

end CallNesting
end LineBasic
