import LineBasic.Text.Blank

/-!
# Error codes

The register of error codes. A code is a number below `2 ^ 16` and is written with the letter `E`
and at least four digits.
-/

namespace LineBasic

/-- An entry of the register. -/
structure ErrorCode where
  number : Nat
  category : String
  description : String
  help : Option String
  deriving DecidableEq, Repr

namespace ErrorCode

/-- The register, in ascending order of the numbers. -/
def register : List ErrorCode :=
  [⟨1, "Parser", "Expected line number",
      some "Every program line must start with a line number"⟩,
    ⟨2, "Parser", "Syntax error", some "Check the statement against the MBASIC syntax"⟩,
    ⟨2001, "Symbol", "Conflicting OPTION BASE",
      some "Use a single OPTION BASE value for the whole program"⟩,
    ⟨2002, "Symbol", "Invalid OPTION BASE value", some "OPTION BASE accepts only 0 or 1"⟩,
    ⟨2003, "Symbol", "Array already dimensioned",
      some "Remove the second DIM or ERASE the array first"⟩,
    ⟨2004, "Symbol", "Array dimension is not constant",
      some "Compiled programs need DIM extents known before execution"⟩,
    ⟨2005, "Symbol", "Negative array dimension", none⟩,
    ⟨2006, "Symbol", "Array dimension below OPTION BASE",
      some "With OPTION BASE 1 every extent must be at least 1"⟩,
    ⟨2007, "Symbol", "Array dimension too large",
      some "The element count must fit in memory; extents are limited to 2147483647"⟩,
    ⟨2010, "Symbol", "Function redefined", some "Each DEF FN name may be defined once"⟩,
    ⟨2011, "Symbol", "Undefined user function",
      some "Define the function with DEF FN before calling it"⟩,
    ⟨2012, "Symbol", "Wrong number of function arguments", none⟩,
    ⟨4001, "ControlFlow", "Undefined line number",
      some "The target line does not exist in the program"⟩,
    ⟨4002, "ControlFlow", "NEXT without FOR", none⟩,
    ⟨4003, "ControlFlow", "NEXT variable does not match FOR",
      some "Close inner loops before outer ones"⟩,
    ⟨4004, "ControlFlow", "WEND without WHILE", none⟩,
    ⟨5001, "Layout", "Array flattening skipped",
      some "Array layout needs a single resolved OPTION BASE"⟩,
    ⟨8001, "Target", "Command not supported in compiled programs",
      some "Interactive commands such as LIST or SAVE only work in the interpreter"⟩,
    ⟨8002, "Target", "Statement not supported by the compiler", none⟩,
    ⟨9999, "Internal", "Unknown error",
      some "An unexpected condition was hit during analysis"⟩]

def find? (number : Nat) : Option ErrorCode := register.find? fun c => c.number == number

/-- The entries from `first` to `last`, in ascending order. -/
def range (first last : Nat) : List ErrorCode :=
  register.filter fun c => first ≤ c.number && c.number ≤ last

/-- The written form of a number. -/
def write (number : Nat) : String :=
  let digits := (toString number).toList
  String.ofList ('E' :: (List.replicate (4 - digits.length) '0' ++ digits))

/-- The number of a written code; the digits may have a plus sign. -/
def read? (text : String) : Option Nat :=
  match text.toList with
  | 'E' :: '+' :: digits => number? digits
  | 'E' :: digits => number? digits
  | _ => none
where
  number? (digits : List Char) : Option Nat :=
    let n := Text.ofDecimal digits
    if digits ≠ [] ∧ digits.all Char.isDigit ∧ n < 65536 then some n else none

/-- The entry on one line of text. -/
def text (c : ErrorCode) : String := write c.number ++ " [" ++ c.category ++ "]: " ++ c.description

end ErrorCode
end LineBasic
