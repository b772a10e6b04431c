import LineBasic.Source.File

/-!
# Diagnostics

A diagnostic belongs to a program line, or to a position in the text where no program line was read.
-/

namespace LineBasic

inductive Severity where
  | error | warning | info | hint
  deriving DecidableEq, Repr

namespace Severity

def label : Severity → String
  | error => "error"
  | warning => "warning"
  | info => "info"
  | hint => "hint"

/-- The place in the order of severities, the gravest first. -/
def rank : Severity → Nat
  | error => 0
  | warning => 1
  | info => 2
  | hint => 3

end Severity

/-- A remark on another program line. -/
structure Label where
  line : Nat
  message : String
  isSecondary : Bool
  deriving DecidableEq, Repr

/-- A proposed replacement. -/
structure Suggestion where
  message : String
  replacement : String
  deriving DecidableEq, Repr

structure Diagnostic where
  severity : Severity
  code : Option String := none
  message : String
  line : Option Nat := none
  position : Option SourcePosition := none
  labels : List Label := []
  suggestions : List Suggestion := []
  notes : List String := []
  help : List String := []
  deriving DecidableEq, Repr

namespace Diagnostic

/-- The severity with the code, if there is one. -/
def heading (d : Diagnostic) : String :=
  d.severity.label ++ d.code.elim "" fun code => "[" ++ code ++ "]"

/-- The diagnostic on one line of text. -/
def summary (d : Diagnostic) : String :=
  d.heading ++ d.line.elim ": " (fun line => ": line " ++ toString line ++ ": ") ++ d.message

def isError (d : Diagnostic) : Bool := d.severity == .error

def isWarning (d : Diagnostic) : Bool := d.severity == .warning

/-- The first diagnostic stands before the second: by program line, then by severity. -/
def precedes (a b : Diagnostic) : Bool :=
  let lineOf (d : Diagnostic) := d.line.getD 4294967295
  lineOf a < lineOf b || (lineOf a == lineOf b && a.severity.rank ≤ b.severity.rank)

/-- Diagnostics in the order of their program lines; equal ones keep their order. -/
def sort (ds : List Diagnostic) : List Diagnostic := ds.mergeSort precedes

def hasErrors (ds : List Diagnostic) : Bool := ds.any isError

end Diagnostic
end LineBasic
