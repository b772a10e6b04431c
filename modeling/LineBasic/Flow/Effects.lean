import LineBasic.Flow.Graph
import LineBasic.Symbol.Table

/-!
# What statements read and write

Reads are listed in the order of evaluation, and all of a statement's reads come before its writes.
A call of a user function reads its arguments and the free variables of its body, and of the bodies
of the functions called there.
-/

namespace LineBasic

/-- What a variable is read for. -/
inductive UseContext where
  | expression | condition | output | subscript | loopBound | increment | argument | swap
  | functionBody
  deriving DecidableEq, Repr

def UseContext.text : UseContext → String
  | expression => "used in expression"
  | condition => "used in condition"
  | output => "used in PRINT"
  | subscript => "used as array subscript"
  | loopBound => "used in FOR bounds"
  | increment => "incremented by NEXT"
  | argument => "passed as argument"
  | swap => "used in SWAP"
  | functionBody => "read by function body"

/-- One read of a scalar. -/
structure VarUse where
  name : String
  context : UseContext
  /-- The function whose body reads it. -/
  via : Option String
  deriving DecidableEq, Repr

/-- What a statement reads and writes. -/
structure Effects where
  uses : List VarUse
  /-- The scalars written, in order. -/
  defs : List String
  arrayDefs : List String
  /-- The expressions that are evaluated as a whole. -/
  roots : List (Expr Float)

/-- The name of an array among what is read and written. -/
def arrayTag (name : String) : String := name ++ "()"

/-- The scalars, and the arrays by their tags, that an expression reads. -/
def Expr.readTags {ν : Type} (e : Expr ν) : List String :=
  e.subterms.filterMap fun sub => match sub with
    | .scalar name => some name.key
    | .element name _ => some (arrayTag name.key)
    | _ => none

namespace Effects

def none : Effects := ⟨[], [], [], []⟩

/-- The scalars, and the arrays by their tags, that are written. -/
def writtenTags (fx : Effects) : List String := fx.defs ++ fx.arrayDefs.map arrayTag

def reads (fx : Effects) (name : String) : Bool := fx.uses.any fun u => u.name == name

def writes (fx : Effects) (name : String) : Bool := fx.defs.contains name

end Effects

/-- What the body of a function reads for a call. -/
def FunctionInfo.bodyReads (f : FunctionInfo) : List VarUse :=
  f.freeVariables.map fun name => ⟨name, .functionBody, some f.name.key⟩

namespace SymbolTable

/--
What the functions called in an expression read, and those called in their bodies, except the
functions in `visiting`. Each level expands one more function, so `n` need not exceed their number.
-/
def callReads (t : SymbolTable) : Nat → List String → Expr Float → List VarUse
  | 0, _, _ => []
  | n + 1, visiting, e => e.subterms.flatMap fun sub => match sub with
    | .call name _ =>
      if visiting.contains name.key then []
      else match t.functions[name.key]? with
        | some f => f.bodyReads ++ t.callReads n (name.key :: visiting) f.body
        | none => []
    | _ => []

/-- What a call of a function reads beside its arguments. -/
def functionReads (t : SymbolTable) (name : String) : List VarUse :=
  match t.functions[name]? with
  | some f => f.bodyReads ++ t.callReads t.functions.size [name] f.body
  | none => []

mutual

/-- The reads of an expression that is evaluated for `context`. -/
def exprReads (t : SymbolTable) (context : UseContext) : Expr Float → List VarUse
  | .number .. | .string _ => []
  | .scalar name => [⟨name.key, context, none⟩]
  | .element _ subscripts => t.exprReadsOfList .subscript subscripts
  | .unary _ operand => t.exprReads context operand
  | .binary _ left right => t.exprReads context left ++ t.exprReads context right
  | .intrinsic _ args => t.exprReadsOfList context args
  | .call name args => t.exprReadsOfList .argument args ++ t.functionReads name.key

def exprReadsOfList (t : SymbolTable) (context : UseContext) : List (Expr Float) → List VarUse
  | [] => []
  | e :: rest => t.exprReads context e ++ t.exprReadsOfList context rest

end

end SymbolTable

/-- Expressions that a statement evaluates, with what for, and whether they count as roots. -/
structure Evaluated where
  expr : Expr Float
  context : UseContext
  isRoot : Bool := true

namespace Command

def evaluated (context : UseContext) (es : List (Expr Float)) : List Evaluated :=
  es.map fun e => { expr := e, context }

/-- What is evaluated for the subscripts of targets. -/
def subscriptsOf (targets : List (Target Float)) : List Evaluated :=
  evaluated .subscript (targets.flatMap Target.subscripts)

/-- The expressions that a command evaluates for values, not to find its targets. -/
def sources : Command → List Evaluated
  | assign _ value => evaluated .expression [value]
  | print channel items =>
    evaluated .expression channel.toList ++ evaluated .output (items.filterMap fun item =>
      match item with
      | .expr e => some e
      | _ => none)
  | input channel .. | lineInput channel .. => evaluated .expression channel.toList
  | dim arrays => (arrays.flatMap ArrayDecl.extents).map fun e =>
    { expr := e, context := .expression, isRoot := false }
  | whileLoop condition => evaluated .condition [condition]
  | forLoop _ start stop step => evaluated .loopBound (start :: stop :: step.toList)
  | onGoto selector _ | onGosub selector _ => evaluated .expression [selector]
  | randomize seed => evaluated .expression seed.toList
  | device _ args => evaluated .expression args
  | _ => []

/-- The targets that a command writes, in order. -/
def targets : Command → List (Target Float)
  | assign target _ | lineInput _ _ target => [target]
  | input _ _ targets | read targets => targets
  | swap left right => [left, right]
  | _ => []

/-- The expressions that a command evaluates, in order. -/
def evaluations (c : Command) : List Evaluated := c.sources ++ subscriptsOf c.targets

/-- The counters that a `NEXT` steps: those it names, or that of the loop it closes. -/
def steppedCounters (closed : List ForLoop) : List Name → List String
  | [] => closed.map ForLoop.counter
  | counters => counters.map Name.key

/-- The effects of a command; `closed` are the loops that it closes. -/
def effects (t : SymbolTable) (closed : List ForLoop) (c : Command) : Effects :=
  let reads (es : List Evaluated) := es.flatMap fun e => t.exprReads e.context e.expr
  let roots (es : List Evaluated) := (es.filter Evaluated.isRoot).map Evaluated.expr
  match c with
  | swap left right =>
    let side (target : Target Float) : List VarUse :=
      reads (subscriptsOf [target]) ++ match target with
        | .scalar name => [⟨name.key, .swap, none⟩]
        | .element .. => []
    { uses := side left ++ side right
      defs := written [left, right]
      arrayDefs := writtenArrays [left, right]
      roots := roots (subscriptsOf [left, right]) }
  | next counters =>
    let stepped := steppedCounters closed counters
    { Effects.none with
      uses := stepped.map fun name => ⟨name, .increment, Option.none⟩
      defs := stepped }
  | forLoop counter .. =>
    { uses := reads c.evaluations, defs := [counter.key], arrayDefs := [],
      roots := roots c.evaluations }
  | _ =>
    { uses := reads c.evaluations, defs := written c.targets, arrayDefs := writtenArrays c.targets,
      roots := roots c.evaluations }
where
  /-- The scalars among targets. -/
  written (targets : List (Target Float)) : List String := targets.filterMap Target.scalarKey?
  /-- The arrays among targets. -/
  writtenArrays (targets : List (Target Float)) : List String :=
    targets.filterMap fun target => match target with
      | .scalar _ => Option.none
      | .element name _ => some name.key

end Command

/-- The effects of a statement, without those inside its arms. -/
def Statement.effects (t : SymbolTable) (closed : List ForLoop) : Statement → Effects
  | .command _ body => body.effects t closed
  | .conditional _ condition .. =>
    { uses := t.exprReads .condition condition, defs := [], arrayDefs := [], roots := [condition] }

/-- The effects of every node, in the order of the nodes. -/
def Graph.effects (g : Graph) (t : SymbolTable) : Array Effects :=
  g.nodes.map fun n => n.statement.elim .none fun s => s.effects t (g.loopsClosedBy n.id)

end LineBasic
