import LineBasic.Expr.Basic

/-!
# Statements and programs

A statement is a command or a condition with arms of further statements. A program is a list of
numbered lines. Line numbers are natural numbers below `2 ^ 32`.
-/

namespace LineBasic

/-- One item of a `PRINT` list. -/
inductive PrintItem where
  | expr (e : Expr Float)
  /-- A comma, which goes on to the next print zone. -/
  | zone
  /-- A semicolon, which leaves no space. -/
  | join
  deriving Repr

/-- An array of a `DIM` list with its inclusive upper bounds. -/
structure ArrayDecl where
  name : Name
  extents : List (Expr Float)
  deriving Repr

/-- Where `RESUME` goes on. -/
inductive ResumePoint where
  | retry
  | next
  | line (number : Nat)
  deriving DecidableEq, Repr

/-- A statement other than `IF`. -/
inductive Command where
  | assign (target : Target Float) (value : Expr Float)
  | print (channel : Option (Expr Float)) (items : List PrintItem)
  | input (channel : Option (Expr Float)) (prompt : Option String) (targets : List (Target Float))
  | lineInput (channel : Option (Expr Float)) (prompt : Option String) (target : Target Float)
  | read (targets : List (Target Float))
  | data (items : List String)
  | restore (line : Option Nat)
  | dim (arrays : List ArrayDecl)
  | optionBase (base : Nat)
  | defType (type : StorageType) (ranges : List (Char × Char))
  | defFn (name : Name) (params : List Name) (body : Expr Float)
  | forLoop (counter : Name) (start stop : Expr Float) (step : Option (Expr Float))
  | next (counters : List Name)
  | whileLoop (condition : Expr Float)
  | wend
  | goto (line : Nat)
  | gosub (line : Nat)
  | returnSub
  | onGoto (selector : Expr Float) (lines : List Nat)
  | onGosub (selector : Expr Float) (lines : List Nat)
  /-- Line `0` ends the trapping of errors. -/
  | onError (line : Nat)
  | resume (point : ResumePoint)
  | endRun
  | stopRun
  | swap (left right : Target Float)
  | randomize (seed : Option (Expr Float))
  | traceOn
  | traceOff
  | common (names : List Name)
  | erase (names : List Name)
  | remark (text : String)
  /-- A command of the interactive prompt, with the text after it. -/
  | interactive (keyword : String) (text : String)
  /-- A statement that matters only for the expressions it evaluates. -/
  | device (keyword : String) (args : List (Expr Float))
  deriving Repr

/-- The word that names a command in messages. -/
def Command.keyword : Command → String
  | assign .. => "LET"
  | print .. => "PRINT"
  | input .. => "INPUT"
  | lineInput .. => "LINE INPUT"
  | read _ => "READ"
  | data _ => "DATA"
  | restore _ => "RESTORE"
  | dim _ => "DIM"
  | optionBase _ => "OPTION BASE"
  | defType .. => "DEFtype"
  | defFn .. => "DEF FN"
  | forLoop .. => "FOR"
  | next _ => "NEXT"
  | whileLoop _ => "WHILE"
  | wend => "WEND"
  | goto _ => "GOTO"
  | gosub _ => "GOSUB"
  | returnSub => "RETURN"
  | onGoto .. => "ON GOTO"
  | onGosub .. => "ON GOSUB"
  | onError _ => "ON ERROR GOTO"
  | resume _ => "RESUME"
  | endRun => "END"
  | stopRun => "STOP"
  | swap .. => "SWAP"
  | randomize _ => "RANDOMIZE"
  | traceOn => "TRON"
  | traceOff => "TROFF"
  | common _ => "COMMON"
  | erase _ => "ERASE"
  | remark _ => "REM"
  | interactive keyword _ | device keyword _ => keyword

/-- Where a statement stands: its program line and the column of its first byte, from 1. -/
structure Place where
  line : Nat
  column : Nat
  deriving DecidableEq, Repr

mutual

inductive Statement where
  | command (place : Place) (body : Command)
  | conditional (place : Place) (condition : Expr Float) (onTrue : Arm) (onFalse : Option Arm)
  deriving Repr

/-- What `THEN` and `ELSE` lead to. -/
inductive Arm where
  | line (number : Nat)
  | block (statements : List Statement)
  deriving Repr

end

namespace Statement

def place : Statement → Place
  | command place _ | conditional place .. => place

def line (s : Statement) : Nat := s.place.line

def column (s : Statement) : Nat := s.place.column

/-- The command of a statement that is not an `IF`. -/
def command? : Statement → Option Command
  | command _ body => some body
  | conditional .. => none

def keyword : Statement → String
  | command _ body => body.keyword
  | conditional .. => "IF"

end Statement

/-- The statements of an arm; a line number has none. -/
def Arm.statements : Arm → List Statement
  | line _ => []
  | block statements => statements

structure ProgramLine where
  number : Nat
  statements : List Statement
  /-- The physical line of the text, from 1. -/
  sourceLine : Nat
  deriving Repr

/-- A program, its lines in ascending order of their numbers. -/
structure Program where
  lines : List ProgramLine
  deriving Repr

namespace Program

def line? (p : Program) (number : Nat) : Option ProgramLine :=
  p.lines.find? fun l => l.number == number

/-- The statements of the lines, without those inside arms. -/
def statements (p : Program) : List Statement := p.lines.flatMap ProgramLine.statements

def isEmpty (p : Program) : Bool := p.lines.isEmpty

end Program
end LineBasic
