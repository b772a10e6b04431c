import LineBasic.Grammar.Statement
import LineBasic.Diagnostic.Basic

/-!
# Reading programs

Every physical line that is not blank has to be a numbered program line. A number that comes again
replaces the earlier line. If any line fails, the program is refused with one fault for each of
them.
-/

namespace LineBasic

/-- A physical line that is no program line. -/
structure LineFault where
  sourceLine : Nat
  /-- The column in bytes, from 1, of the place that was reached. -/
  column : Nat
  /-- The byte offset of that place, every line before it counted with one terminator byte. -/
  offset : Nat
  /-- The line does not begin with a digit. -/
  isUnnumbered : Bool
  /-- What stands at the place that was reached. -/
  nearby : String
  deriving DecidableEq, Repr

namespace LineFault

def message (f : LineFault) : String :=
  if f.column = 1 || f.isUnnumbered then "expected line number"
  else "syntax error near `" ++ f.nearby ++ "`"

def code (f : LineFault) : String := if f.column = 1 then "E0001" else "E0002"

def toDiagnostic (f : LineFault) : Diagnostic :=
  { severity := .error, code := some f.code, message := f.message,
    position := some ⟨f.sourceLine, f.column, f.offset⟩ }

/-- The fault of a line whose reading stopped at `place`. -/
def ofStop (sourceLine lineOffset : Nat) (text place : List Char) : LineFault :=
  let column := Text.byteSize text - Text.byteSize place + 1
  { sourceLine, column, offset := lineOffset + column - 1,
    isUnnumbered := (Text.trimStart text).head?.any fun c => !c.isDigit,
    nearby := String.ofList (Text.trim place) }

end LineFault

namespace Program

/-- The program lines, or the fault, of each line of a text from a physical line on. -/
def readLines (sourceLine offset : Nat) : List (List Char) → List (Except LineFault ProgramLine)
  | [] => []
  | text :: rest =>
    let later := readLines (sourceLine + 1) (offset + Text.byteSize text + 1) rest
    if (Text.trim text).isEmpty then later
    else match Grammar.programLine sourceLine text with
      | .accepted line _ => .ok line :: later
      | .refused place | .aborted place => .error (.ofStop sourceLine offset text place) :: later

/-- The lines with one more, which replaces a line of the same number. -/
def insertLine (line : ProgramLine) : List ProgramLine → List ProgramLine
  | [] => [line]
  | first :: rest =>
    if line.number < first.number then line :: first :: rest
    else if line.number = first.number then line :: rest
    else first :: insertLine line rest

/-- A program from its text. -/
def parse (source : String) : Except (List LineFault) Program :=
  let results := readLines 1 0 (Text.lines source.toList)
  let faults := results.filterMap fun r => match r with
    | .error fault => some fault
    | .ok _ => none
  if faults.isEmpty then
    .ok ⟨results.foldl (fun lines r => match r with
      | .ok line => insertLine line lines
      | .error _ => lines) []⟩
  else .error faults

end Program
end LineBasic
