import LineBasic.Grammar.Lexical
import LineBasic.Expr.Basic

/-!
# Reading expressions

One definition for each binding strength, from calls and parentheses up to `IMP`. Each of them takes
the parser `inner` for what stands inside parentheses; `nested` ties the knot down to a given depth,
and `expression` takes the length of the input as the depth, since every parenthesis is a character.
-/

namespace LineBasic.Grammar

open LineBasic.Parser

/-- Operands joined by operators of one strength, grouped from the left. -/
def leftGrouped (operator : Parser BinaryOp) (operand : Parser (Expr Float)) :
    Parser (Expr Float) := do
  let first ← operand
  let others ← repeated do
    match ← attempt operator with
    | some op => return ([(op, ← operand)], true)
    | none => return ([], false)
  return others.foldl (fun left (op, right) => .binary op left right) first

/-- The first operator of a list that stands here: a word for letters, else a punctuation mark. -/
def operatorOf (spellings : List (String × BinaryOp)) : Parser BinaryOp :=
  firstOf (spellings.map fun (spelling, op) => do
    let _ ← if spelling.toList.all Char.isAlpha then keyword spelling else symbol spelling
    return op)

/-- Repeats a marker for as long as it stands here, and counts it. -/
def counted (marker : Parser String) : Parser Nat := do
  let marks ← repeated do
    match ← attempt marker with
    | some _ => return ([()], true)
    | none => return ([], false)
  return marks.length

/-- The name of an intrinsic function. -/
def intrinsicName : Parser Intrinsic := do
  let _ ← blanks
  wholly do
    match Intrinsic.ofName? (Text.upper (String.ofList (← spelledName))) with
    | some f => return f
    | none => refuse

section

variable (inner : Parser (Expr Float))

/-- Arguments in parentheses, separated by commas. -/
def arguments : Parser (List (Expr Float)) := do
  let _ ← symbol "("
  let args ← separated1 (symbol ",") inner
  let _ ← symbol ")"
  return args

/-- Subscripts after the name of an array; a name without a parenthesis has none. -/
def subscripts? : Parser (Option (List (Expr Float))) := do
  match Text.trimStart (← remaining) with
  | '(' :: _ => return some (← arguments inner)
  | _ => return none

/-- A number as an expression. -/
def numberExpr : Parser (Expr Float) := do
  let (value, text) ← number
  return .number value text

/-- A string as an expression. -/
def stringExpr : Parser (Expr Float) := Expr.string <$> quoted

/-- An expression in parentheses. -/
def enclosed : Parser (Expr Float) := do
  let _ ← symbol "("
  let e ← inner
  let _ ← symbol ")"
  return e

/-- A call of a user function. -/
def userCall : Parser (Expr Float) := do
  let name ← functionName
  return .call name ((← optional (arguments inner)).getD [])

/-- An intrinsic call, an array element or a variable. -/
def namedExpr : Parser (Expr Float) := do
  match ← optional intrinsicName with
  | some f => return .intrinsic f ((← optional (arguments inner)).getD [])
  | none =>
    let name ← variableName
    match ← subscripts? inner with
    | some subscripts => return .element name subscripts
    | none => return .scalar name

/-- What operators join: a literal, an expression in parentheses, a call or a variable. -/
def atom : Parser (Expr Float) :=
  firstOf [numberExpr, stringExpr, enclosed inner, userCall inner, namedExpr inner]

/-- The operand after `^`, which may carry signs of its own. -/
def exponentExpr : Parser (Expr Float) := do
  let signs ← counted (symbol "-")
  return signs.repeat (.unary .neg) (← atom inner)

def powerExpr : Parser (Expr Float) := do
  let base ← atom inner
  let exponents ← repeated do
    match ← attempt (symbol "^") with
    | some _ => return ([← exponentExpr inner], true)
    | none => return ([], false)
  return exponents.foldl (.binary .pow) base

/-- A run of signs before an operand; a plus sign leaves no trace. -/
def negationExpr : Parser (Expr Float) := do
  let signs ← repeated do
    match ← attempt (symbol "-" <|> symbol "+") with
    | some sign => return ([sign], true)
    | none => return ([], false)
  return (signs.count "-").repeat (.unary .neg) (← powerExpr inner)

def multiplicativeExpr : Parser (Expr Float) :=
  leftGrouped (operatorOf [("*", .mul), ("/", .div)]) (negationExpr inner)

def intDivExpr : Parser (Expr Float) :=
  leftGrouped (operatorOf [("\\", .intDiv)]) (multiplicativeExpr inner)

def modExpr : Parser (Expr Float) := leftGrouped (operatorOf [("MOD", .mod)]) (intDivExpr inner)

def additiveExpr : Parser (Expr Float) :=
  leftGrouped (operatorOf [("+", .add), ("-", .sub)]) (modExpr inner)

/-- The relational operators in all their spellings, those of two characters first. -/
def relationalSpellings : List (String × BinaryOp) :=
  [("<>", .ne), ("><", .ne), ("<=", .le), ("=<", .le), (">=", .ge), ("=>", .ge), ("<", .lt),
    (">", .gt), ("=", .eq)]

def relationalExpr : Parser (Expr Float) :=
  leftGrouped (operatorOf relationalSpellings) (additiveExpr inner)

def notExpr : Parser (Expr Float) := do
  let words ← counted (keyword "NOT")
  return words.repeat (.unary .not) (← relationalExpr inner)

def andExpr : Parser (Expr Float) := leftGrouped (operatorOf [("AND", .and)]) (notExpr inner)

def orExpr : Parser (Expr Float) := leftGrouped (operatorOf [("OR", .or)]) (andExpr inner)

def xorExpr : Parser (Expr Float) := leftGrouped (operatorOf [("XOR", .xor)]) (orExpr inner)

def eqvExpr : Parser (Expr Float) := leftGrouped (operatorOf [("EQV", .eqv)]) (xorExpr inner)

def impExpr : Parser (Expr Float) := leftGrouped (operatorOf [("IMP", .imp)]) (eqvExpr inner)

end

/-- An expression with parentheses nested less than `depth` deep. -/
def nested : Nat → Parser (Expr Float)
  | 0 => refuse
  | depth + 1 => impExpr (nested depth)

/-- An expression. -/
def expression : Parser (Expr Float) := fun s => nested (s.length + 1) s

/-- What an assignment writes. -/
def target : Parser (Target Float) := do
  let name ← variableName
  match ← subscripts? expression with
  | some subscripts => return .element name subscripts
  | none => return .scalar name

end LineBasic.Grammar
