import LineBasic.Diagnostic.Basic
import LineBasic.Error.Code

/-!
# Errors of a program

What is wrong with a program that was read, by its cause. A program with any of these errors cannot
be compiled.
-/

namespace LineBasic

/-- The cause of an error. -/
inductive ErrorCause where
  | conflictingOptionBase (firstLine firstValue line value : Nat)
  | invalidOptionBase (value : Nat)
  | arrayRedimensioned (name : String) (firstLine : Nat)
  | nonConstantDimension (name extent : String)
  | negativeDimension (name : String) (value : Int)
  | dimensionBelowBase (name : String) (value : Int) (base : Nat)
  | dimensionTooLarge (name extent : String)
  | functionRedefined (name : String) (firstLine : Nat)
  | undefinedFunction (name : String)
  | functionArity (name : String) (expected found : Nat)
  | undefinedLine (target : Nat) (statement : String)
  | nextWithoutFor
  | nextMismatch (expected found : String)
  | wendWithoutWhile
  | flatteningSkipped (name : String)
  | unsupportedCommand (name : String)
  | unsupportedStatement (name : String)
  deriving DecidableEq, Repr

namespace ErrorCause

/-- The number of the cause in the register of error codes. -/
def code : ErrorCause → Nat
  | conflictingOptionBase .. => 2001
  | invalidOptionBase _ => 2002
  | arrayRedimensioned .. => 2003
  | nonConstantDimension .. => 2004
  | negativeDimension .. => 2005
  | dimensionBelowBase .. => 2006
  | dimensionTooLarge .. => 2007
  | functionRedefined .. => 2010
  | undefinedFunction _ => 2011
  | functionArity .. => 2012
  | undefinedLine .. => 4001
  | nextWithoutFor => 4002
  | nextMismatch .. => 4003
  | wendWithoutWhile => 4004
  | flatteningSkipped _ => 5001
  | unsupportedCommand _ => 8001
  | unsupportedStatement _ => 8002

def message : ErrorCause → String
  | conflictingOptionBase firstLine firstValue line value =>
    s!"Conflicting OPTION BASE: {firstValue} at line {firstLine}, {value} at line {line}"
  | invalidOptionBase value => s!"OPTION BASE {value} is invalid (must be 0 or 1)"
  | arrayRedimensioned name firstLine => s!"Array {name} already dimensioned at line {firstLine}"
  | nonConstantDimension name extent =>
    s!"Array {name} dimension `{extent}` is not a compile-time constant"
  | negativeDimension name value => s!"Array {name} has negative dimension {value}"
  | dimensionBelowBase name value base =>
    s!"Array {name} dimension {value} is below OPTION BASE {base}"
  | dimensionTooLarge name extent => s!"Array {name} dimension {extent} is too large to allocate"
  | functionRedefined name firstLine => s!"Function {name} already defined at line {firstLine}"
  | undefinedFunction name => s!"Undefined user function {name}"
  | functionArity name expected found =>
    s!"Function {name} takes {expected} argument(s) but {found} were given"
  | undefinedLine target statement => s!"{statement} to undefined line {target}"
  | nextWithoutFor => "NEXT without FOR"
  | nextMismatch expected found => s!"NEXT {found} does not match FOR {expected}"
  | wendWithoutWhile => "WEND without WHILE"
  | flatteningSkipped name => s!"Cannot flatten array {name}: OPTION BASE is unresolved"
  | unsupportedCommand name =>
    s!"{name} is an interactive command and cannot appear in a program"
  | unsupportedStatement name => s!"{name} is not supported by the compiler"

/-- Remarks on the earlier lines that the error is about. -/
def labels : ErrorCause → List Label
  | conflictingOptionBase firstLine firstValue _ _ =>
    [⟨firstLine, s!"OPTION BASE {firstValue} first set here", true⟩]
  | arrayRedimensioned _ firstLine | functionRedefined _ firstLine =>
    [⟨firstLine, "first definition", true⟩]
  | _ => []

end ErrorCause

/-- An error and the program line that it belongs to. -/
structure SemanticError where
  cause : ErrorCause
  line : Option Nat
  deriving DecidableEq, Repr

namespace SemanticError

/-- An error of a known line. -/
def onLine (line : Nat) (cause : ErrorCause) : SemanticError := ⟨cause, some line⟩

def code (e : SemanticError) : String := ErrorCode.write e.cause.code

def text (e : SemanticError) : String :=
  e.line.elim "" (fun line => s!"line {line}: ") ++ e.cause.message

def toDiagnostic (e : SemanticError) : Diagnostic :=
  { severity := .error, code := some e.code, message := e.cause.message, line := e.line,
    labels := e.cause.labels,
    help := ((ErrorCode.find? e.cause.code).bind ErrorCode.help).toList }

end SemanticError
end LineBasic
