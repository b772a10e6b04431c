import LineBasic.Program.Walk

/-!
# Compiler switches

Some statements can be compiled only under a switch. A program needs the switches of all its
statements.
-/

namespace LineBasic

/-- A switch that makes a statement possible. -/
inductive Switch where
  | lineTracing | errorTrapping | errorRecovery
  deriving DecidableEq, Repr

namespace Switch

/-- The switches in the order of their letters. -/
def all : List Switch := [lineTracing, errorTrapping, errorRecovery]

def text : Switch → String
  | lineTracing => "/D"
  | errorTrapping => "/E"
  | errorRecovery => "/X"

def reason : Switch → String
  | lineTracing => "TRON/TROFF need debug line tracing"
  | errorTrapping => "ON ERROR GOTO needs error trapping"
  | errorRecovery => "RESUME and RESUME NEXT need statement-level error recovery"

end Switch

/-- The switch that a command needs. -/
def Command.switch? : Command → Option Switch
  | onError _ => some .errorTrapping
  | resume .retry | resume .next => some .errorRecovery
  | traceOn | traceOff => some .lineTracing
  | _ => none

/-- A switch that a program needs, with the first line that needs it. -/
structure RequiredSwitch where
  switch : Switch
  firstLine : Nat
  deriving DecidableEq, Repr

/-- The first statement of a program that needs a switch. -/
def Program.firstNeed? (p : Program) (switch : Switch) : Option Statement :=
  p.allStatements.find? fun s => s.command?.bind Command.switch? == some switch

/-- The switches that a program needs. -/
def Program.requiredSwitches (p : Program) : List RequiredSwitch :=
  Switch.all.filterMap fun switch => (p.firstNeed? switch).map fun s => ⟨switch, s.line⟩

end LineBasic
