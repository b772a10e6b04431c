import LineBasic.Flow.Effects
import LineBasic.Flow.Solver
import LineBasic.Diagnostic.Basic

/-!
# Definite assignment

A scalar is definitely assigned at a node if every path from the entry to the node assigns it. A
read of a scalar that is not is reported once for each node. Array elements begin as zero and are
never reported.
-/

namespace LineBasic

/-- The scalars that are assigned on every path. -/
abbrev AssignedSet := Std.ExtTreeSet String

/-- The scalars that some node writes. -/
def writtenScalars (effects : Array Effects) : AssignedSet :=
  effects.foldl (fun s fx => s.insertMany fx.defs) ∅

def definiteAssignment (effects : Array Effects) : ForwardAnalysis AssignedSet :=
  { name := "definite-assignment"
    atEntry := ∅
    meet := fun a b => a ∩ b
    transfer := fun id fact => (effects[id]?).elim fact fun fx => fact.insertMany fx.defs
    height := (writtenScalars effects).size }

/-- A read of a scalar that may not have been assigned. -/
structure UninitializedUse where
  line : Nat
  name : String
  /-- What it is read for, in words. -/
  context : String
  deriving DecidableEq, Repr

namespace UninitializedUse

def toDiagnostic (u : UninitializedUse) : Diagnostic :=
  let name := u.name
  let context := u.context
  { severity := .warning
    line := some u.line
    message := s!"Variable {name} {context} before it is assigned"
    help := ["MBASIC initializes it to zero; assign it explicitly to make the intent clear"] }

/-- What a read is for; a read by a function body names the function. -/
def contextOf (u : VarUse) : String := u.via.elim u.context.text fun f => "read by " ++ f

/-- The first read at a node of each scalar that is not in `assigned`. -/
def atNode (line : Nat) (assigned : AssignedSet) (uses : List VarUse) : List UninitializedUse :=
  let open' := uses.filter fun u => !assigned.contains u.name
  let first := (open'.map VarUse.name).eraseDups.filterMap fun name =>
    open'.find? fun u => u.name == name
  first.map fun u => ⟨line, u.name, contextOf u⟩

/-- The reads before assignment at a node, given the scalars that are assigned at the nodes. -/
def ofNode (effects : Array Effects) (solution : Solution AssignedSet) (n : Node) :
    List UninitializedUse :=
  match solution.before[n.id]?, effects[n.id]? with
  | some assigned, some fx => atNode n.line assigned fx.uses
  | _, _ => []

/-- The reads before assignment in a graph, given the scalars that are assigned at its nodes. -/
def ofSolution (g : Graph) (effects : Array Effects) (solution : Solution AssignedSet) :
    List UninitializedUse :=
  g.nodes.toList.flatMap (ofNode effects solution)

end UninitializedUse

/-- The reads before assignment in a graph, in the order of its nodes. -/
def findUninitialized (g : Graph) (effects : Array Effects) : List UninitializedUse :=
  UninitializedUse.ofSolution g effects ((definiteAssignment effects).solve g)

end LineBasic
