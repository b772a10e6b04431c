import LineBasic.Expr.Basic

/-!
# Written forms of expressions

`Expr.write` puts parentheses only where the binding strengths need them, and shows names and
numbers either canonically or as typed. `Expr.key` is fully parenthesised and orders the operands of
commutative operators, so that expressions which differ in that order only have the same key.
-/

namespace LineBasic

/-- How names and numbers are shown. -/
inductive Spelling where
  /-- Upper-case names and canonical numbers. -/
  | canonical
  /-- As they were typed. -/
  | asTyped
  deriving DecidableEq, Repr

/-- A name as the spelling shows it. -/
def Spelling.name : Spelling → Name → String
  | canonical, n => n.key
  | asTyped, n => n.text

namespace Expr

variable {ν : Type} [Arithmetic ν]

/-- The binding strength of the outermost operator; what has none binds tightest. -/
def precedence : Expr ν → Nat
  | .unary op _ => op.precedence
  | .binary op _ _ => op.precedence
  | _ => 14

/-- The text in parentheses if `needed`. -/
def enclose (needed : Bool) (text : String) : String := if needed then "(" ++ text ++ ")" else text

/-- Arguments of a call; an empty list has no parentheses. -/
def callSuffix (args : List String) : String :=
  if args.isEmpty then "" else "(" ++ ", ".intercalate args ++ ")"

mutual

/-- The expression with as few parentheses as its reading allows. -/
def write (spelling : Spelling) : Expr ν → String
  | .number value text =>
    match spelling with
    | .canonical => Arithmetic.text value
    | .asTyped => text
  | .string body => "\"" ++ body ++ "\""
  | .scalar name => spelling.name name
  | .element name subscripts =>
    spelling.name name ++ "(" ++ ", ".intercalate (writeList spelling subscripts) ++ ")"
  | .unary op operand =>
    op.symbol ++ enclose (operand.precedence < op.precedence) (operand.write spelling)
  | .binary op left right =>
    enclose (left.precedence < op.precedence) (left.write spelling) ++ " " ++ op.symbol ++ " " ++
      enclose (right.precedence ≤ op.precedence) (right.write spelling)
  | .intrinsic function args => function.name ++ callSuffix (writeList spelling args)
  | .call name args => spelling.name name ++ callSuffix (writeList spelling args)

def writeList (spelling : Spelling) : List (Expr ν) → List String
  | [] => []
  | e :: rest => e.write spelling :: writeList spelling rest

end

/-- The canonical text. -/
def canonical (e : Expr ν) : String := e.write .canonical

/-- The text as typed, with normal spacing and parentheses. -/
def source (e : Expr ν) : String := e.write .asTyped

mutual

/-- A fully parenthesised text in which commutative operators have their operands in order. -/
def key : Expr ν → String
  | .number value _ => Arithmetic.text value
  | .string body => "\"" ++ body ++ "\""
  | .scalar name => name.key
  | .element name subscripts => name.key ++ "(" ++ ", ".intercalate (keyList subscripts) ++ ")"
  | .unary op operand => "(" ++ op.symbol ++ operand.key ++ ")"
  | .binary op left right =>
    let l := left.key
    let r := right.key
    if op.isCommutative && decide (r < l) then "(" ++ r ++ " " ++ op.symbol ++ " " ++ l ++ ")"
    else "(" ++ l ++ " " ++ op.symbol ++ " " ++ r ++ ")"
  | .intrinsic function args => function.name ++ "(" ++ ", ".intercalate (keyList args) ++ ")"
  | .call name args => name.key ++ "(" ++ ", ".intercalate (keyList args) ++ ")"

def keyList : List (Expr ν) → List String
  | [] => []
  | e :: rest => e.key :: keyList rest

end

end Expr

/-- The canonical text of a target. -/
def Target.canonical {ν : Type} [Arithmetic ν] (t : Target ν) : String := t.toExpr.canonical

end LineBasic
