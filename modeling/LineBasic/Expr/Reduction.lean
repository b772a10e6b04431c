import LineBasic.Expr.Value

/-!
# Reduction of expressions

`Expr.reduce` simplifies an expression from the operands up with algebraic identities and reports
every reduction. Parts built from literals are replaced by their value without a report. Identities
that drop or repeat an operand need it free of impure calls, and the logical identities fire on the
constants `0` and `-1` and on operands with equal keys, never on a variable.
-/

namespace LineBasic

/-- The identity that a reduction applied. -/
inductive Identity where
  | multiplyToAdd | eliminateMultiply | multiplyIdentity | multiplyToShift | divideIdentity
  | divideToShift | addIdentity | subtractIdentity | selfSubtract | powerZero | powerIdentity
  | powerToMultiply | booleanIdentity | booleanConstant | doubleNegation | constantNot
  | doubleNegate | negateZero | relationalInversion | deMorgan | absorption
  deriving DecidableEq, Repr

namespace Identity

def label : Identity → String
  | multiplyToAdd => "multiply→add"
  | eliminateMultiply => "eliminate multiply"
  | multiplyIdentity => "multiply identity"
  | multiplyToShift => "multiply→shift"
  | divideIdentity => "divide identity"
  | divideToShift => "divide→shift"
  | addIdentity => "add identity"
  | subtractIdentity => "subtract identity"
  | selfSubtract => "self subtraction"
  | powerZero => "power zero"
  | powerIdentity => "power identity"
  | powerToMultiply => "power→multiply"
  | booleanIdentity => "boolean identity"
  | booleanConstant => "boolean constant"
  | doubleNegation => "double negation"
  | constantNot => "constant NOT"
  | doubleNegate => "double negate"
  | negateZero => "negate zero"
  | relationalInversion => "relational inversion"
  | deMorgan => "De Morgan"
  | absorption => "absorption"

/-- What the reduction saves, in words. -/
def savings : Identity → String
  | multiplyToAdd => "1 multiply replaced by 1 add"
  | eliminateMultiply | multiplyIdentity => "1 multiply eliminated"
  | multiplyToShift => "multiply by power of 2 can use shift"
  | divideIdentity => "1 division eliminated"
  | divideToShift => "integer division by power of 2 can use shift"
  | addIdentity | subtractIdentity => "1 add eliminated"
  | selfSubtract => "1 subtraction eliminated"
  | powerZero | powerIdentity => "1 exponentiation eliminated"
  | powerToMultiply => "exponentiation replaced by multiplication"
  | booleanIdentity | booleanConstant => "1 logical operation eliminated"
  | doubleNegation | doubleNegate => "2 negations eliminated"
  | constantNot | negateZero => "1 negation eliminated"
  | relationalInversion => "NOT eliminated"
  | deMorgan => "NOT pushed into operands"
  | absorption => "2 logical operations eliminated"

end Identity

/-- The report of one reduction: the expression before and after it. -/
structure Reduction where
  identity : Identity
  before : String
  after : String
  /-- How many of the reports after this one it made possible. -/
  exposed : Nat
  deriving DecidableEq, Repr

/-- What a rule does with a binary expression. -/
inductive ReductionStep (ν : Type) where
  | keep
  /-- The expression stays, but could be computed more cheaply in the way the text shows. -/
  | remark (text : String) (identity : Identity)
  | replace (result : Expr ν) (identity : Identity)

namespace Expr

variable {ν : Type} [Arithmetic ν]

def isPure (e : Expr ν) : Bool := !e.hasSideEffects

/-- The number of a folded operand is the integer `n`. -/
def isNumber (c : Option ν) (n : Int) : Bool :=
  c.any fun v => Arithmetic.same v (Arithmetic.ofInt n)

/-- The `n` for which a number is `2 ^ n`, up to the largest power below `2 ^ 32`. -/
def shiftAmount? (value : ν) : Option Nat :=
  (Arithmetic.integer? value).bind fun n =>
    if 1 ≤ n ∧ n < 4294967296 ∧ Nat.pow 2 n.toNat.log2 = n.toNat then some n.toNat.log2 else none

/-- `compound` is free of impure calls and has an operand with the key of `single`. -/
def absorbs (dual : BinaryOp) (compound single : Expr ν) : Bool :=
  match compound with
  | .binary op left right =>
    op == dual && compound.isPure && (left.key == single.key || right.key == single.key)
  | _ => false

/-- `A AND B OR A` and `(A OR B) AND A` are `A`, in either order of the operands. -/
def absorb? (dual : BinaryOp) (left right : Expr ν) : Option (Expr ν) :=
  if !left.isPure || !right.isPure then none
  else if absorbs dual left right then some right
  else if absorbs dual right left then some left
  else none

/-- `n` factors `e`, multiplied from the left. -/
def product (e : Expr ν) (n : Nat) : Expr ν :=
  (List.range (n - 1)).foldl (fun acc _ => .binary .mul acc e) e

/-- The rule that applies to a binary expression with reduced operands. -/
def binaryStep (boolean : Bool) (op : BinaryOp) (left right : Expr ν) : ReductionStep ν :=
  let lc := left.constantNumber?
  let rc := right.constantNumber?
  let same := left.isPure && right.isPure && left.key == right.key
  match op with
  | .mul =>
    if isNumber rc 0 && left.isPure then .replace (.ofInt 0) .eliminateMultiply
    else if isNumber lc 0 && right.isPure then .replace (.ofInt 0) .eliminateMultiply
    else if isNumber rc 1 then .replace left .multiplyIdentity
    else if isNumber lc 1 then .replace right .multiplyIdentity
    else if isNumber rc 2 && left.isPure then .replace (.binary .add left left) .multiplyToAdd
    else if isNumber lc 2 && right.isPure then .replace (.binary .add right right) .multiplyToAdd
    else
      let shift := ((rc.bind shiftAmount?).map fun n => (left, n)) <|>
        ((lc.bind shiftAmount?).map fun n => (right, n))
      match shift with
      | some (operand, n) =>
        if 1 < n then .remark (operand.canonical ++ " << " ++ toString n) .multiplyToShift
        else .keep
      | none => .keep
  | .div => if isNumber rc 1 then .replace left .divideIdentity else .keep
  | .intDiv =>
    if isNumber rc 1 then .replace left .divideIdentity
    else match rc.bind shiftAmount? with
      | some n =>
        if 1 ≤ n then .remark (left.canonical ++ " >> " ++ toString n) .divideToShift else .keep
      | none => .keep
  | .add =>
    if isNumber rc 0 then .replace left .addIdentity
    else if isNumber lc 0 then .replace right .addIdentity
    else .keep
  | .sub =>
    if isNumber rc 0 then .replace left .subtractIdentity
    else if same then .replace (.ofInt 0) .selfSubtract
    else .keep
  | .pow =>
    if isNumber rc 0 && left.isPure then .replace (.ofInt 1) .powerZero
    else if isNumber rc 1 then .replace left .powerIdentity
    else if left.isPure then
      match [2, 3, 4].find? fun n => isNumber rc (Int.ofNat n) with
      | some n => .replace (left.product n) .powerToMultiply
      | none => .keep
    else .keep
  | .and =>
    if (isNumber rc 0 && left.isPure) || (isNumber lc 0 && right.isPure) then
      .replace (.ofInt 0) .booleanConstant
    else if isNumber rc (-1) then .replace left .booleanIdentity
    else if isNumber lc (-1) then .replace right .booleanIdentity
    else if same then .replace left .booleanIdentity
    else if boolean then
      match absorb? .or left right with
      | some kept => .replace kept .absorption
      | none => .keep
    else .keep
  | .or =>
    if (isNumber rc (-1) && left.isPure) || (isNumber lc (-1) && right.isPure) then
      .replace (.ofInt (-1)) .booleanConstant
    else if isNumber rc 0 then .replace left .booleanIdentity
    else if isNumber lc 0 then .replace right .booleanIdentity
    else if same then .replace left .booleanIdentity
    else if boolean then
      match absorb? .and left right with
      | some kept => .replace kept .absorption
      | none => .keep
    else .keep
  | .xor =>
    if isNumber rc 0 then .replace left .booleanIdentity
    else if isNumber lc 0 then .replace right .booleanIdentity
    else if same then .replace (.ofInt 0) .booleanConstant
    else .keep
  | _ => .keep

/-- A binary expression with reduced operands: folded, replaced by a rule, or kept. -/
def reduceBinary (boolean : Bool) (op : BinaryOp) (left right : Expr ν) :
    Expr ν × List Reduction :=
  let before : Expr ν := .binary op left right
  match before.constant? with
  | some value => (value.toExpr, [])
  | none =>
    match binaryStep boolean op left right with
    | .keep => (before, [])
    | .remark text identity => (before, [⟨identity, before.canonical, text, 0⟩])
    | .replace after identity => (after, [⟨identity, before.canonical, after.canonical, 0⟩])

/-- A negated operand that is already reduced. -/
def negate (operand : Expr ν) : Expr ν × List Reduction :=
  let before : Expr ν := .unary .neg operand
  match operand.constantNumber? with
  | some v =>
    if Arithmetic.isZero v then (.ofInt 0, [⟨.negateZero, before.canonical, "0", 0⟩])
    else (.ofNumber (-v), [])
  | none => (before, [])

/-- `NOT` of an operand that is already reduced, pushed inward if `boolean`. -/
def complement (boolean : Bool) (operand : Expr ν) : Expr ν × List Reduction :=
  let before : Expr ν := .unary .not operand
  match operand.constantNumber? with
  | some v =>
    if Arithmetic.isZero v then (.ofInt (-1), [⟨.constantNot, before.canonical, "-1", 0⟩])
    else if isNumber (some v) (-1) then (.ofInt 0, [⟨.constantNot, before.canonical, "0", 0⟩])
    else ((UnaryOp.not.result? v).elim before .ofNumber, [])
  | none =>
    match boolean, operand with
    | true, .binary .and left right =>
      pushed before .or (complement true left) (complement true right)
    | true, .binary .or left right =>
      pushed before .and (complement true left) (complement true right)
    | true, .binary op left right =>
      match op.inverted? with
      | some inverse =>
        let after : Expr ν := .binary inverse left right
        (after, [⟨.relationalInversion, before.canonical, after.canonical, 0⟩])
      | none => (before, [])
    | _, _ => (before, [])
where
  /-- De Morgan's step, reported ahead of the steps that it exposed. -/
  pushed (before : Expr ν) (dual : BinaryOp) (left right : Expr ν × List Reduction) :
      Expr ν × List Reduction :=
    let after : Expr ν := .binary dual left.1 right.1
    let exposed := left.2 ++ right.2
    (after, ⟨.deMorgan, before.canonical, after.canonical, exposed.length⟩ :: exposed)

/-- `e` under `n` copies of a unary operator. -/
def wrap (op : UnaryOp) (n : Nat) (e : Expr ν) : Expr ν := n.repeat (.unary op) e

/-- An expression as a run of one unary operator over a reduced operand. -/
structure Run (ν : Type) where
  /-- The operator and how often it stands in a row; `none` if the expression is not unary. -/
  operator : Option (UnaryOp × Nat)
  operand : Expr ν
  reports : List Reduction

/-- One report for each adjacent pair of `n` equal operators, from the outside in. -/
def pairReports (op : UnaryOp) (n : Nat) (operand : Expr ν) : List Reduction :=
  let identity := match op with
    | .not => Identity.doubleNegation
    | .neg => Identity.doubleNegate
  (List.range (n - 1)).map fun i =>
    ⟨identity, (wrap op (n - i) operand).canonical, (wrap op (n - i - 2) operand).canonical, 0⟩

/-- The reduced form of a run: pairs of equal operators cancel. -/
def Run.finish (boolean : Bool) (run : Run ν) : Expr ν × List Reduction :=
  match run.operator with
  | none => (run.operand, run.reports)
  | some (op, n) =>
    let pairs := pairReports op n run.operand
    if n % 2 = 0 then (run.operand, run.reports ++ pairs)
    else
      let (result, reports) := match op with
        | .neg => negate run.operand
        | .not => complement boolean run.operand
      (result, run.reports ++ pairs ++ reports)

/-- A run with one more operator in front. -/
def Run.extend (boolean : Bool) (op : UnaryOp) (run : Run ν) : Run ν :=
  let alone :=
    let (operand, reports) := run.finish boolean
    ⟨some (op, 1), operand, reports⟩
  match run.operator with
  | some (inner, n) => if inner = op then { run with operator := some (op, n + 1) } else alone
  | none => alone

mutual

/-- The expression as a run, its operand reduced. -/
def run (boolean : Bool) : Expr ν → Run ν
  | .unary op operand => (operand.run boolean).extend boolean op
  | .binary op left right =>
    let (l, leftReports) := (left.run boolean).finish boolean
    let (r, rightReports) := (right.run boolean).finish boolean
    let (result, reports) := reduceBinary boolean op l r
    ⟨none, result, leftReports ++ rightReports ++ reports⟩
  | .element name subscripts =>
    let (subscripts, reports) := reduceList boolean subscripts
    ⟨none, .element name subscripts, reports⟩
  | .intrinsic f args =>
    let (args, reports) := reduceList boolean args
    let rebuilt : Expr ν := .intrinsic f args
    ⟨none, rebuilt.constant?.elim rebuilt Value.toExpr, reports⟩
  | .call name args =>
    let (args, reports) := reduceList boolean args
    ⟨none, .call name args, reports⟩
  | .number value text => ⟨none, .number value text, []⟩
  | .string body => ⟨none, .string body, []⟩
  | .scalar name => ⟨none, .scalar name, []⟩

def reduceList (boolean : Bool) : List (Expr ν) → List (Expr ν) × List Reduction
  | [] => ([], [])
  | e :: rest =>
    let (first, reports) := (e.run boolean).finish boolean
    let (others, more) := reduceList boolean rest
    (first :: others, reports ++ more)

end

/-- The reduced expression and a report of every reduction. -/
def reduce (boolean : Bool) (e : Expr ν) : Expr ν × List Reduction :=
  (e.run boolean).finish boolean

end Expr

/-- The reports in the order in which the reductions were finished. -/
def Reduction.completionOrder : List Reduction → List Reduction
  | [] => []
  | r :: rest =>
    completionOrder (rest.take r.exposed) ++ r :: completionOrder (rest.drop r.exposed)
termination_by reports => reports.length

end LineBasic
