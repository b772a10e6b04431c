import LineBasic.Expr.Name
import LineBasic.Expr.Operator
import LineBasic.Number.Arithmetic

/-!
# Expressions

Expressions over numbers of a type `ν`, assignment targets, and the walks over them that every
analysis shares: direct operands, all subexpressions in evaluation order, and the search for calls
that must not be dropped or repeated.
-/

namespace LineBasic

/-- An expression over numbers of type `ν`. -/
inductive Expr (ν : Type) where
  /-- A number with its spelling. -/
  | number (value : ν) (text : String)
  | string (body : String)
  | scalar (name : Name)
  | element (name : Name) (subscripts : List (Expr ν))
  | unary (op : UnaryOp) (operand : Expr ν)
  | binary (op : BinaryOp) (left right : Expr ν)
  | intrinsic (function : Intrinsic) (args : List (Expr ν))
  /-- A call of a function that the program defines. -/
  | call (name : Name) (args : List (Expr ν))
  deriving Repr

namespace Expr

variable {ν : Type}

/-- A number in its canonical spelling. -/
def ofNumber [Arithmetic ν] (value : ν) : Expr ν := .number value (Arithmetic.text value)

/-- An integer in its canonical spelling. -/
def ofInt [Arithmetic ν] (n : Int) : Expr ν := ofNumber (Arithmetic.ofInt n)

def number? : Expr ν → Option ν
  | .number value _ => some value
  | _ => none

def isLiteral : Expr ν → Bool
  | .number .. | .string _ => true
  | _ => false

/-- Variables and literals, which cost nothing to evaluate again. -/
def isTrivial : Expr ν → Bool
  | .number .. | .string _ | .scalar _ => true
  | _ => false

/-- The direct operands, in evaluation order. -/
def children : Expr ν → List (Expr ν)
  | .number .. | .string _ | .scalar _ => []
  | .element _ subscripts => subscripts
  | .unary _ operand => [operand]
  | .binary _ left right => [left, right]
  | .intrinsic _ args | .call _ args => args

mutual

/-- The expression and its subexpressions, each before its operands. -/
def subterms : Expr ν → List (Expr ν)
  | e@(.number ..) => [e]
  | e@(.string _) => [e]
  | e@(.scalar _) => [e]
  | e@(.element _ subscripts) => e :: subtermsOfList subscripts
  | e@(.unary _ operand) => e :: operand.subterms
  | e@(.binary _ left right) => e :: (left.subterms ++ right.subterms)
  | e@(.intrinsic _ args) => e :: subtermsOfList args
  | e@(.call _ args) => e :: subtermsOfList args

/-- The subexpressions of a list of expressions, from left to right. -/
def subtermsOfList : List (Expr ν) → List (Expr ν)
  | [] => []
  | e :: rest => e.subterms ++ subtermsOfList rest

end

mutual

/-- The expression and its subexpressions, each before its operands, the last operand first. -/
def subtermsFromRight : Expr ν → List (Expr ν)
  | e@(.number ..) => [e]
  | e@(.string _) => [e]
  | e@(.scalar _) => [e]
  | e@(.element _ subscripts) => e :: subtermsFromRightOfList subscripts
  | e@(.unary _ operand) => e :: operand.subtermsFromRight
  | e@(.binary _ left right) => e :: (right.subtermsFromRight ++ left.subtermsFromRight)
  | e@(.intrinsic _ args) => e :: subtermsFromRightOfList args
  | e@(.call _ args) => e :: subtermsFromRightOfList args

/-- The subexpressions of a list of expressions, those of the last one first. -/
def subtermsFromRightOfList : List (Expr ν) → List (Expr ν)
  | [] => []
  | e :: rest => subtermsFromRightOfList rest ++ e.subtermsFromRight

end

mutual

/-- The largest subexpressions that satisfy `p`, from left to right. -/
def largest (p : Expr ν → Bool) (e : Expr ν) : List (Expr ν) :=
  if p e then [e]
  else match e with
    | .number .. | .string _ | .scalar _ => []
    | .element _ subscripts => largestOfList p subscripts
    | .unary _ operand => operand.largest p
    | .binary _ left right => left.largest p ++ right.largest p
    | .intrinsic _ args => largestOfList p args
    | .call _ args => largestOfList p args

def largestOfList (p : Expr ν → Bool) : List (Expr ν) → List (Expr ν)
  | [] => []
  | e :: rest => e.largest p ++ largestOfList p rest

end

theorem subtermsOfList_eq_flatMap (es : List (Expr ν)) :
    subtermsOfList es = es.flatMap subterms := by
  induction es with
  | nil => simp [subtermsOfList]
  | cons e rest ih => simp [subtermsOfList, ih]

/-- The expression is itself a call that may give another result the next time. -/
def isImpureCall : Expr ν → Bool
  | .call .. => true
  | .intrinsic f _ => f.isImpure
  | _ => false

/-- Some call in the expression may give another result the next time. -/
def hasSideEffects (e : Expr ν) : Bool := e.subterms.any isImpureCall

mutual

/-- The expression with `f` applied to its numbers, their spellings kept. -/
def map {μ : Type} (f : ν → μ) : Expr ν → Expr μ
  | .number value text => .number (f value) text
  | .string body => .string body
  | .scalar name => .scalar name
  | .element name subscripts => .element name (mapList f subscripts)
  | .unary op operand => .unary op (operand.map f)
  | .binary op left right => .binary op (left.map f) (right.map f)
  | .intrinsic function args => .intrinsic function (mapList f args)
  | .call name args => .call name (mapList f args)

def mapList {μ : Type} (f : ν → μ) : List (Expr ν) → List (Expr μ)
  | [] => []
  | e :: rest => e.map f :: mapList f rest

end

end Expr

/-- What an assignment writes: a scalar, or an element of an array. -/
inductive Target (ν : Type) where
  | scalar (name : Name)
  | element (name : Name) (subscripts : List (Expr ν))
  deriving Repr

namespace Target

variable {ν : Type}

def name : Target ν → Name
  | .scalar name | .element name _ => name

def subscripts : Target ν → List (Expr ν)
  | .scalar _ => []
  | .element _ subscripts => subscripts

/-- The key of a target that is a scalar. -/
def scalarKey? : Target ν → Option String
  | .scalar name => some name.key
  | .element .. => none

/-- The target read back. -/
def toExpr : Target ν → Expr ν
  | .scalar name => .scalar name
  | .element name subscripts => .element name subscripts

end Target
end LineBasic
