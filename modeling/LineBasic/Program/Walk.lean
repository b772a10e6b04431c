import LineBasic.Program.Statement

/-!
# Walks over statements

`Command.parts` lists what a command refers to in the order of evaluation, `Statement.visits` adds
the statements inside arms, each before its parts. Every whole-program survey is a walk of this
kind.
-/

namespace LineBasic

/-- An expression that a command evaluates, or a target that it writes. -/
inductive Part where
  | expr (e : Expr Float)
  | target (t : Target Float)
  deriving Repr

/-- The expressions that are evaluated for a part: those in its subscripts, for a target. -/
def Part.roots : Part → List (Expr Float)
  | expr e => [e]
  | target t => t.subscripts

/-- The expressions and targets of a command, in the order in which they are met. -/
def Command.parts : Command → List Part
  | assign target value => [.target target, .expr value]
  | print channel items =>
    channel.toList.map .expr ++ items.filterMap fun item => match item with
      | .expr e => some (.expr e)
      | _ => none
  | input channel _ targets => channel.toList.map .expr ++ targets.map .target
  | lineInput channel _ target => channel.toList.map .expr ++ [.target target]
  | read targets => targets.map .target
  | dim arrays => arrays.flatMap fun a => a.extents.map .expr
  | defFn _ _ body => [.expr body]
  | forLoop _ start stop step => .expr start :: .expr stop :: step.toList.map .expr
  | whileLoop condition => [.expr condition]
  | onGoto selector _ | onGosub selector _ => [.expr selector]
  | swap left right => [.target left, .target right]
  | randomize seed => seed.toList.map .expr
  | device _ args => args.map .expr
  | _ => []

/-- The expressions of a command, those in the subscripts of targets included. -/
def Command.roots (c : Command) : List (Expr Float) := c.parts.flatMap Part.roots

/-- One step of a walk over a statement. -/
inductive Visit where
  | statement (s : Statement)
  | part (p : Part)
  | expr (e : Expr Float)
  | arm (a : Arm)
  deriving Repr

/-- A part, then the expressions below it. -/
def Part.visits : Part → List Visit
  | part => .part part :: match part with
    | .expr e => e.subterms.tail.map .expr
    | .target t => (Expr.subtermsOfList t.subscripts).map .expr

mutual

/-- A statement, its parts and the statements in its arms, everything before what is inside it. -/
def Statement.visits : Statement → List Visit
  | .command place body => .statement (.command place body) :: body.parts.flatMap Part.visits
  | .conditional place condition onTrue none =>
    .statement (.conditional place condition onTrue none) ::
      ((Part.expr condition).visits ++ onTrue.visits)
  | .conditional place condition onTrue (some onFalse) =>
    .statement (.conditional place condition onTrue (some onFalse)) ::
      ((Part.expr condition).visits ++ onTrue.visits ++ onFalse.visits)

def Arm.visits : Arm → List Visit
  | .line number => [.arm (.line number)]
  | .block statements => .arm (.block statements) :: visitsOfList statements

def visitsOfList : List Statement → List Visit
  | [] => []
  | s :: rest => s.visits ++ visitsOfList rest

end

mutual

/-- A statement and those inside its arms, each with the number of arms around it. -/
def Statement.occurrences (depth : Nat) : Statement → List (Statement × Nat)
  | .command place body => [(.command place body, depth)]
  | .conditional place condition onTrue none =>
    (.conditional place condition onTrue none, depth) :: onTrue.occurrences (depth + 1)
  | .conditional place condition onTrue (some onFalse) =>
    (.conditional place condition onTrue (some onFalse), depth) ::
      (onTrue.occurrences (depth + 1) ++ onFalse.occurrences (depth + 1))

def Arm.occurrences (depth : Nat) : Arm → List (Statement × Nat)
  | .line _ => []
  | .block statements => occurrencesOfList depth statements

def occurrencesOfList (depth : Nat) : List Statement → List (Statement × Nat)
  | [] => []
  | s :: rest => s.occurrences depth ++ occurrencesOfList depth rest

end

theorem occurrencesOfList_append (depth : Nat) (before after : List Statement) :
    occurrencesOfList depth (before ++ after) =
      occurrencesOfList depth before ++ occurrencesOfList depth after := by
  induction before with
  | nil => rfl
  | cons s rest ih =>
    rw [List.cons_append, occurrencesOfList, occurrencesOfList, ih, List.append_assoc]

/-- The expressions that a statement itself evaluates, without those of its arms. -/
def Statement.roots : Statement → List (Expr Float)
  | .command _ body => body.roots
  | .conditional _ condition .. => [condition]

namespace Program

/-- Every statement of the program with the number of arms around it, in the order of the text. -/
def occurrences (p : Program) : List (Statement × Nat) := occurrencesOfList 0 p.statements

/-- Every statement of the program, in the order of the text. -/
def allStatements (p : Program) : List Statement := p.occurrences.map Prod.fst

/-- Every expression of the program with its program line, in the order of the text. -/
def roots (p : Program) : List (Nat × Expr Float) :=
  p.allStatements.flatMap fun s => s.roots.map fun e => (s.line, e)

def visits (p : Program) : List Visit := visitsOfList p.statements

end Program
end LineBasic
