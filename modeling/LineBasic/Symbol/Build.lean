import LineBasic.Symbol.Table
import LineBasic.Error.Semantic
import LineBasic.Program.Walk

/-!
# Building symbol tables

Two sweeps over the statements in the order of the text, then the layout of the arrays. The first
sweep collects what holds for the whole program: `OPTION BASE`, the types of letters and the user
functions. The second one meets the variables and evaluates the bounds in `DIM` statements with the
scalars that hold a constant at that point of the text.
-/

namespace LineBasic

/-- The bound of each dimension of an array that is used without `DIM`. -/
def implicitExtent : Int := 10

/-- The largest bound that `DIM` accepts. -/
def largestExtent : Int := 2147483647

/-- The least value that an error about a bound shows. -/
def leastExtent : Int := -9223372036854775808

/-- A symbol table under construction. -/
structure SymbolSweep where
  table : SymbolTable
  errors : List SemanticError
  /-- The scalars that hold a known number at the current point of the text. -/
  constants : Std.ExtTreeMap String Float
  /-- The number of subscripts at the first occurrence of each array. -/
  ranks : Std.ExtTreeMap String Nat

namespace SymbolSweep

def empty : SymbolSweep := ⟨.empty, [], ∅, ∅⟩

/-- The sweep with one more error. -/
def fail (s : SymbolSweep) (line : Nat) (cause : ErrorCause) : SymbolSweep :=
  { s with errors := s.errors ++ [.onLine line cause] }

/-! ## Directives -/

/-- The first valid `OPTION BASE` sets the base; others must agree with it. -/
def optionBase (s : SymbolSweep) (line base : Nat) : SymbolSweep :=
  if 1 < base then s.fail line (.invalidOptionBase base)
  else match s.table.baseLine with
    | none => { s with table := { s.table with base, baseLine := some line } }
    | some firstLine =>
      if s.table.base = base then s
      else
        let s := s.fail line (.conflictingOptionBase firstLine s.table.base line base)
        { s with table := { s.table with baseResolved := false } }

/-- The letters from the first to the last, none if they are out of order. -/
def letters (range : Char × Char) : List Char :=
  (List.range (range.2.toNat + 1 - range.1.toNat)).map fun i => Char.ofNat (range.1.toNat + i)

def defType (s : SymbolSweep) (type : StorageType) (ranges : List (Char × Char)) : SymbolSweep :=
  { s with table := { s.table with
      letterTypes := (ranges.flatMap letters).foldl (fun m c => m.insert c type)
        s.table.letterTypes } }

/-- A function is defined by its first definition only. -/
def defFn (s : SymbolSweep) (line : Nat) (name : Name) (params : List Name) (body : Expr Float) :
    SymbolSweep :=
  match s.table.functions[name.key]? with
  | some first => s.fail line (.functionRedefined name.key first.line)
  | none =>
    let info : FunctionInfo :=
      { name, type := .single, parameters := params.map Name.key, line, body }
    { s with table := { s.table with functions := s.table.functions.insert name.key info } }

/-- The part of a statement that holds for the whole program. -/
def directive (s : SymbolSweep) (statement : Statement) : SymbolSweep :=
  match statement with
  | .command place (.optionBase base) => s.optionBase place.line base
  | .command _ (.defType type ranges) => s.defType type ranges
  | .command place (.defFn name params body) => s.defFn place.line name params body
  | _ => s

/-! ## Variables -/

def touchScalar (line : Nat) (s : SymbolSweep) (name : Name) : SymbolSweep :=
  if s.table.scalars.contains name.key then s
  else
    let info : ScalarInfo :=
      { name, type := s.table.typeOf name, firstLine := line, integerRange := none }
    { s with table := { s.table with scalars := s.table.scalars.insert name.key info } }

def touchArray (line : Nat) (s : SymbolSweep) (name : Name) (rank : Nat) : SymbolSweep :=
  let s := { s with ranks := s.ranks.insertIfNew name.key rank }
  if s.table.arrays.contains name.key then s
  else
    let info : ArrayInfo :=
      { name, type := s.table.typeOf name, firstLine := line, dimLine := none, dimensions := [],
        layout := none }
    { s with table := { s.table with arrays := s.table.arrays.insert name.key info } }

/-- Meets the variables of an expression, except the scalars in `hidden`. -/
def touchExpr (line : Nat) (hidden : List String) (s : SymbolSweep) (e : Expr Float) :
    SymbolSweep :=
  e.subterms.foldl (fun s e => match e with
    | .scalar name => if hidden.contains name.key then s else s.touchScalar line name
    | .element name subscripts => s.touchArray line name subscripts.length
    | _ => s) s

def touchExprs (line : Nat) (s : SymbolSweep) (es : List (Expr Float)) : SymbolSweep :=
  es.foldl (touchExpr line []) s

/-- The scalar holds no known number from here on. -/
def forget (s : SymbolSweep) (name : Name) : SymbolSweep :=
  { s with constants := s.constants.erase name.key }

def assign (line : Nat) (s : SymbolSweep) (target : Target Float) : SymbolSweep :=
  match target with
  | .scalar name => (s.touchScalar line name).forget name
  | .element name subscripts => s.touchArray line name subscripts.length

/-- The number that an expression has at this point of the text. -/
def known? (s : SymbolSweep) (e : Expr Float) : Option Float :=
  (e.evaluate? fun key => s.constants[key]?).bind Value.number?

/-- The bound that a value gives, or what is wrong with it. -/
def extent (name : String) (e : Expr Float) : Option Float → Except ErrorCause Int
  | none => .error (.nonConstantDimension name e.source)
  | some value =>
    match Arithmetic.nearest? value with
    | some n =>
      if n < 0 then .error (.negativeDimension name (max n leastExtent))
      else if largestExtent < n then .error (.dimensionTooLarge name e.source)
      else .ok n
    | none =>
      if value < 0 then .error (.negativeDimension name leastExtent)
      else .error (.dimensionTooLarge name e.source)

/-- An array in a `DIM` statement, which may stand only once for each array. -/
def declare (line : Nat) (s : SymbolSweep) (array : ArrayDecl) : SymbolSweep :=
  let key := array.name.key
  match s.table.arrays[key]?.bind ArrayInfo.dimLine with
  | some firstLine => s.fail line (.arrayRedimensioned key firstLine)
  | none =>
    let extents := array.extents.map fun e => extent key e (s.known? e)
    let faults := extents.filterMap fun r => match r with
      | .error cause => some cause
      | .ok _ => none
    let dimensions := if faults.isEmpty then extents.filterMap Except.toOption else []
    let s := faults.foldl (fun s cause => s.fail line cause) s
    let s := s.touchArray line array.name array.extents.length
    { s with table := { s.table with
        arrays := s.table.arrays.modify key fun info =>
          { info with dimLine := some line, dimensions } } }

/-- Meets the variables of a command under `depth` arms. -/
def command (line depth : Nat) (s : SymbolSweep) (c : Command) : SymbolSweep :=
  match c with
  | .assign target value =>
    let met := (s.touchExpr line [] value).touchExprs line target.subscripts
    let assigned := met.assign line target
    match target, met.known? value, depth with
    | .scalar name, some n, 0 =>
      { assigned with constants := assigned.constants.insert name.key n }
    | _, _, _ => assigned
  | .input _ _ targets | .read targets => targets.foldl (assign line) (s.touchExprs line c.roots)
  | .lineInput _ _ target => (s.touchExprs line c.roots).assign line target
  | .swap left right => ((s.touchExprs line c.roots).assign line left).assign line right
  | .forLoop counter .. => ((s.touchExprs line c.roots).touchScalar line counter).forget counter
  | .next counters => counters.foldl forget s
  | .dim arrays => arrays.foldl (declare line) (s.touchExprs line c.roots)
  | .defFn _ params body => s.touchExpr line (params.map Name.key) body
  | _ => s.touchExprs line c.roots

/-- Meets the variables of a statement, but not those inside its arms. -/
def statement (s : SymbolSweep) (occurrence : Statement × Nat) : SymbolSweep :=
  match occurrence with
  | (.command place c, depth) => s.command place.line depth c
  | (.conditional place condition .., _) => s.touchExpr place.line [] condition

/-! ## Layout -/

/-- The bounds of an array, which has some without `DIM` as well. -/
def dimensionsOf (s : SymbolSweep) (array : ArrayInfo) : List Int :=
  if array.dimLine.isSome then array.dimensions
  else List.replicate (s.ranks[array.name.key]?.getD 1) implicitExtent

/-- The array with its bounds and its layout. -/
def layOut (s : SymbolSweep) (array : ArrayInfo) : ArrayInfo :=
  let dimensions := s.dimensionsOf array
  { array with
    dimensions
    layout := if dimensions.isEmpty || !s.table.baseResolved then none
      else ArrayLayout.ofExtents? dimensions s.table.base }

/-- Why an array cannot be laid out. -/
def layoutError? (s : SymbolSweep) (array : ArrayInfo) : Option SemanticError :=
  let key := array.name.key
  let dimensions := s.dimensionsOf array
  if dimensions.isEmpty then none
  else if !s.table.baseResolved then
    array.dimLine.map fun line => .onLine line (.flatteningSkipped key)
  else if (s.layOut array).layout.isSome then none
  else
    let cause := match dimensions.find? fun d => decide (d < (s.table.base : Int)) with
      | some value => ErrorCause.dimensionBelowBase key value s.table.base
      | none => .dimensionTooLarge key (", ".intercalate (dimensions.map toString))
    some (.onLine (array.dimLine.getD array.firstLine) cause)

/-- A warning for an array without `DIM`. -/
def layoutWarning? (array : ArrayInfo) : Option Diagnostic :=
  let key := array.name.key
  let warning : Diagnostic :=
    { severity := .warning
      line := some array.firstLine
      message := s!"Array {key} used without DIM; assuming extent {implicitExtent} per dimension" }
  if array.dimLine.isSome then none else some warning

end SymbolSweep

/-- A symbol table with what is wrong with the declarations. -/
structure SymbolBuild where
  table : SymbolTable
  errors : List SemanticError
  warnings : List Diagnostic

/-- The symbol table of a program. -/
def SymbolTable.build (p : Program) : SymbolBuild :=
  let directed := p.allStatements.foldl SymbolSweep.directive .empty
  let s := p.occurrences.foldl SymbolSweep.statement directed
  let arrays := s.table.arrays.toList.map Prod.snd
  { table := { s.table with
      arrays := s.table.arrays.map fun _ array => s.layOut array
      functions := s.table.functions.map fun _ f =>
        { f with type := s.table.functionTypeOf ⟨f.name.key⟩ } }
    errors := s.errors ++ arrays.filterMap s.layoutError?
    warnings := arrays.filterMap SymbolSweep.layoutWarning? }

end LineBasic
