import LineBasic.Expr.Printer

/-!
# Values of expressions

`Expr.evaluate?` gives the value of an expression whose scalars are given by a function. Whatever
the interpreter would stop at (division by zero, overflow, operands of the wrong kind) has no value,
and neither have array elements, user functions, and intrinsic functions that are not functions of
their arguments alone.
-/

namespace LineBasic

/-- The value of an expression. -/
inductive Value (ν : Type) where
  | number (n : ν)
  | string (s : String)
  deriving Repr

namespace Value

variable {ν : Type}

def number? : Value ν → Option ν
  | .number n => some n
  | .string _ => none

def string? : Value ν → Option String
  | .number _ => none
  | .string s => some s

variable [Arithmetic ν]

def truth (b : Bool) : Value ν := .number (Arithmetic.truth b)

/-- The value as a literal. -/
def toExpr : Value ν → Expr ν
  | .number n => .ofNumber n
  | .string s => .string s

def text : Value ν → String
  | .number n => Arithmetic.text n
  | .string s => "\"" ++ s ++ "\""

/-- A result of arithmetic, which has to be finite. -/
def ofFinite? (n : ν) : Option (Value ν) :=
  if Arithmetic.isFinite n then some (.number n) else none

end Value

/-- A logical operator on 16-bit integers. -/
def BinaryOp.bitwise (op : BinaryOp) (a b : Int) : Int :=
  let x := BitVec.ofInt 16 a
  let y := BitVec.ofInt 16 b
  let bits := match op with
    | .and => x &&& y
    | .or => x ||| y
    | .xor => x ^^^ y
    | .eqv => ~~~(x ^^^ y)
    | _ => ~~~x ||| y
  bits.toInt

/-- Whether a relational operator accepts a pair, given the three basic comparisons. -/
def BinaryOp.accepts (op : BinaryOp) (same less greater : Bool) : Bool :=
  match op with
  | .eq => same
  | .ne => !same
  | .lt => less
  | .le => less || same
  | .gt => greater
  | _ => greater || same

section

variable {ν : Type} [Arithmetic ν]

/-- The value of a unary operator. -/
def UnaryOp.result? (op : UnaryOp) (n : ν) : Option ν :=
  match op with
  | .neg => some (-n)
  | .not => (Arithmetic.word? n).map fun w => Arithmetic.ofInt (-w - 1)

/-- An operator on 16-bit integers; quotients are rounded toward zero. -/
def BinaryOp.applyWords? (op : BinaryOp) (a b : Int) : Option Int :=
  match op with
  | .intDiv => if b = 0 then none else some (a.tdiv b)
  | .mod => if b = 0 then none else some (a.tmod b)
  | _ => some (op.bitwise a b)

/-- The value of a binary operator on numbers. -/
def BinaryOp.applyNumbers? (op : BinaryOp) (a b : ν) : Option (Value ν) :=
  match op with
  | .add => Value.ofFinite? (a + b)
  | .sub => Value.ofFinite? (a - b)
  | .mul => Value.ofFinite? (a * b)
  | .div => if Arithmetic.isZero b then none else Value.ofFinite? (a / b)
  | .pow => Value.ofFinite? (Arithmetic.power a b)
  | .eq | .ne | .lt | .le | .gt | .ge =>
    some (.truth (op.accepts (Arithmetic.same a b) (Arithmetic.less a b) (Arithmetic.less b a)))
  | .intDiv | .mod | .and | .or | .xor | .eqv | .imp => do
    let x ← Arithmetic.word? a
    let y ← Arithmetic.word? b
    return .number (Arithmetic.ofInt (← op.applyWords? x y))

/-- The value of a binary operator on strings, which can be joined and compared. -/
def BinaryOp.applyStrings? (op : BinaryOp) (a b : String) : Option (Value ν) :=
  match op with
  | .add => some (.string (a ++ b))
  | .eq | .ne | .lt | .le | .gt | .ge =>
    some (.truth (op.accepts (a == b) (decide (a < b)) (decide (b < a))))
  | _ => none

/-- The value of a binary operator; operands of different kinds have none. -/
def BinaryOp.result? (op : BinaryOp) : Value ν → Value ν → Option (Value ν)
  | .number a, .number b => op.applyNumbers? a b
  | .string a, .string b => op.applyStrings? a b
  | _, _ => none

namespace Intrinsic

/-- A count of characters given by a number: a 16-bit integer that is not negative. -/
def count? (n : ν) : Option Nat :=
  (Arithmetic.word? n).bind fun w => if w < 0 then none else some w.toNat

/-- The value of an intrinsic function of one number. -/
def applyNumber? (f : Intrinsic) (n : ν) : Option (Value ν) :=
  match f with
  | abs => Value.ofFinite? (Arithmetic.absolute n)
  | int => Value.ofFinite? (Arithmetic.floor n)
  | fix => Value.ofFinite? (Arithmetic.whole n)
  | cint => (Arithmetic.word? n).map fun w => .number (Arithmetic.ofInt w)
  | sgn =>
    let zero : ν := Arithmetic.zero
    some (.number (Arithmetic.ofInt
      (if Arithmetic.less zero n then 1 else if Arithmetic.less n zero then -1 else 0)))
  | sqr =>
    if Arithmetic.atMost Arithmetic.zero n then
      Value.ofFinite? (Arithmetic.elementary .squareRoot n)
    else none
  | log =>
    if Arithmetic.less Arithmetic.zero n then
      Value.ofFinite? (Arithmetic.elementary .logarithm n)
    else none
  | exp => Value.ofFinite? (Arithmetic.elementary .exponential n)
  | sin => Value.ofFinite? (Arithmetic.elementary .sine n)
  | cos => Value.ofFinite? (Arithmetic.elementary .cosine n)
  | tan => Value.ofFinite? (Arithmetic.elementary .tangent n)
  | atn => Value.ofFinite? (Arithmetic.elementary .arctangent n)
  | chr => (count? n).map fun code => .string (String.singleton (Char.ofNat code))
  | _ => none

/-- The value of an intrinsic function of its arguments. -/
def result? (f : Intrinsic) : List (Value ν) → Option (Value ν)
  | [.number n] => f.applyNumber? n
  | [.string s] =>
    match f with
    | len => Value.ofFinite? (Arithmetic.ofInt s.length)
    | asc => s.toList.head?.map fun c => .number (Arithmetic.ofInt c.toNat)
    | _ => none
  | [.string s, .number n] =>
    match f with
    | left => (count? n).map fun size => .string (String.ofList (s.toList.take size))
    | right => (count? n).map fun size => .string (String.ofList (s.toList.drop (s.length - size)))
    | _ => none
  | _ => none

end Intrinsic

namespace Expr

mutual

/-- The value of an expression, its scalars given by `value`. -/
def evaluate? (value : String → Option ν) : Expr ν → Option (Value ν)
  | .number n _ => some (.number n)
  | .string s => some (.string s)
  | .scalar name => (value name.key).map .number
  | .element .. => none
  | .unary op operand => do
    let v ← operand.evaluate? value
    return .number (← op.result? (← v.number?))
  | .binary op left right => do
    let l ← left.evaluate? value
    let r ← right.evaluate? value
    op.result? l r
  | .intrinsic f args => do f.result? (← evaluateList? value args)
  | .call .. => none

def evaluateList? (value : String → Option ν) : List (Expr ν) → Option (List (Value ν))
  | [] => some []
  | e :: rest => do
    let v ← e.evaluate? value
    let vs ← evaluateList? value rest
    return v :: vs

end

/-- The value of an expression built from literals. -/
def constant? (e : Expr ν) : Option (Value ν) := e.evaluate? fun _ => none

/-- The number that an expression built from literals stands for. -/
def constantNumber? (e : Expr ν) : Option ν := e.constant?.bind Value.number?

/-- The expression has a value of its own and is more than a literal with a sign. -/
def isFoldable : Expr ν → Bool
  | .number .. | .string _ | .scalar _ => false
  | .unary .neg (.number ..) => false
  | e => e.constant?.isSome

/-- The largest foldable parts, from left to right, with their values. -/
def foldable (e : Expr ν) : List (Expr ν × Value ν) :=
  (e.largest isFoldable).filterMap fun part => part.constant?.map fun v => (part, v)

end Expr
end
end LineBasic
