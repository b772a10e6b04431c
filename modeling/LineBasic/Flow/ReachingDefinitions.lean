import LineBasic.Flow.Effects
import LineBasic.Flow.Solver
import LineBasic.Expr.Value

/-!
# Reaching definitions

Every read of a scalar is charged to each assignment that may have given the value. An assignment
that is charged with one read can be substituted into it, unless an operand may have changed in
between; one that is charged with none is a dead store.
-/

namespace LineBasic

/-- Scalars with nodes whose assignment may still hold. -/
abbrev DefinitionSet := Std.ExtTreeSet (String × NodeId)

/-- The number of assignments in a program. -/
def definitionCount (effects : Array Effects) : Nat :=
  (effects.toList.flatMap Effects.defs).length

/-- The definitions after a node that writes `defs`. -/
def redefine (id : NodeId) (defs : List String) (fact : DefinitionSet) : DefinitionSet :=
  if defs.isEmpty then fact
  else
    (fact.filter fun (name, _) => !defs.contains name).insertMany (defs.map fun name => (name, id))

def reachingDefinitions (effects : Array Effects) : ForwardAnalysis DefinitionSet :=
  { name := "reaching-definitions"
    atEntry := ∅
    meet := fun a b => a ∪ b
    transfer := fun id fact => (effects[id]?).elim fact fun fx => redefine id fx.defs fact
    height := definitionCount effects }

/-- What is known of an assignment to a scalar. -/
structure Substitution where
  line : Nat
  name : String
  expression : String
  useLines : List Nat
  canSubstitute : Bool
  isDeadStore : Bool
  reason : String
  deriving DecidableEq, Repr

namespace Substitution

/-- The nodes that read what node `d` assigns to `name`, once for each read. -/
def readers (g : Graph) (effects : Array Effects) (solution : Solution DefinitionSet) (d : NodeId)
    (name : String) : List NodeId :=
  g.nodes.toList.flatMap fun n =>
    match solution.before[n.id]?, effects[n.id]? with
    | some before, some fx =>
      (fx.uses.filter fun u => u.name == name && before.contains (name, d)).map fun _ => n.id
    | _, _ => []

/-- The scalars of an expression in ascending order. -/
def operands (e : Expr Float) : List String :=
  (Std.ExtTreeSet.ofList (e.subterms.filterMap fun sub => match sub with
    | .scalar name => some name.key
    | _ => none)).toList

/-- The first user function that an expression calls. -/
def firstCall? (e : Expr Float) : Option String :=
  e.subterms.findSome? fun sub => match sub with
    | .call name _ => some name.key
    | _ => none

/-- The nodes whose assignment of `name` may hold. -/
def definersOf (name : String) (fact : DefinitionSet) : List NodeId :=
  (fact.toList.filter fun (n, _) => n == name).map Prod.snd

/-- The first operand of an assignment to `name` that may differ at the read. -/
def changedOperand? (name : String) (value : Expr Float) (atDefinition atUse : DefinitionSet) :
    Option String :=
  (operands value).find? fun operand =>
    operand == name || definersOf operand atDefinition != definersOf operand atUse

/-- Whether an assignment can be substituted, and why. -/
def verdict (value : Expr Float) (changed : Option String) (useLines : List Nat) : Bool × String :=
  match firstCall? value with
  | some name => (false, "right-hand side calls user-defined function " ++ name)
  | none =>
    if value.hasSideEffects then (false, "right-hand side has side effects")
    else match useLines with
      | [] => (false, "assigned but never used")
      | [line] =>
        match changed with
        | some operand => (false, s!"operand {operand} may change before the use at line {line}")
        | none => (true, s!"used once at line {line}; substitute the expression there")
      | _ =>
        let count := useLines.length
        (false, s!"used {count} times")

/-- The expression only reads a scalar. -/
def isCopy : Expr Float → Bool
  | .scalar _ => true
  | _ => false

/-- The operand of an assignment that may differ at its read, if it has a single one. -/
def changedBefore? (solution : Solution DefinitionSet) (name : String) (value : Expr Float)
    (atDefinition : DefinitionSet) : List NodeId → Option String
  | [reader] => (solution.before[reader]?).bind (changedOperand? name value atDefinition)
  | _ => none

/-- What is known of the assignment at a node, given the definitions that reach the node. -/
def ofDefinitions (g : Graph) (effects : Array Effects) (solution : Solution DefinitionSet)
    (n : Node) (name : Name) (value : Expr Float) (atDefinition : DefinitionSet) : Substitution :=
  let readers := readers g effects solution n.id name.key
  let useLines := readers.map g.lineOf
  let found := verdict value (changedBefore? solution name.key value atDefinition readers) useLines
  { line := n.line, name := name.key, expression := value.canonical, useLines,
    canSubstitute := found.1, isDeadStore := readers.isEmpty && !value.hasSideEffects,
    reason := found.2 }

/-- What is known of the assignment at a node; literals and copies are not considered. -/
def ofAssignment? (g : Graph) (effects : Array Effects) (solution : Solution DefinitionSet)
    (n : Node) (name : Name) (value : Expr Float) : Option Substitution :=
  if value.constant?.isSome || isCopy value then none
  else (solution.before[n.id]?).map (ofDefinitions g effects solution n name value)

/-- What is known of the assignment at a node that assigns to a scalar. -/
def ofNode? (g : Graph) (effects : Array Effects) (solution : Solution DefinitionSet) (n : Node) :
    Option Substitution :=
  match n.command? with
  | some (.assign (.scalar name) value) => ofAssignment? g effects solution n name value
  | _ => none

/-- What is known of the assignments to scalars, given the definitions that reach the nodes. -/
def ofSolution (g : Graph) (effects : Array Effects) (solution : Solution DefinitionSet) :
    List Substitution :=
  g.nodes.toList.filterMap (ofNode? g effects solution)

end Substitution

/-- What is known of the assignments to scalars, in the order of the text. -/
def findSubstitutions (g : Graph) (effects : Array Effects) : List Substitution :=
  Substitution.ofSolution g effects ((reachingDefinitions effects).solve g)

end LineBasic
