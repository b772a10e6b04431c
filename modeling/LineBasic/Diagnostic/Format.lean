import LineBasic.Diagnostic.Basic

/-!
# Diagnostics for the terminal

A diagnostic is shown with the physical line that it concerns, quoted from the loaded text, and with
everything that is attached to it.
-/

namespace LineBasic.Diagnostic

/-- The colours of the parts of a diagnostic. -/
inductive Paint where
  | red | yellow | cyan | green | brightCyan | boldWhite
  deriving DecidableEq, Repr

/-- The escape sequence that switches a colour on. -/
def Paint.escape : Paint → String
  | red => "\x1b[31m"
  | yellow => "\x1b[33m"
  | cyan => "\x1b[36m"
  | green => "\x1b[32m"
  | brightCyan => "\x1b[96m"
  | boldWhite => "\x1b[1;97m"

/-- A text in a colour, if colours are wanted. -/
def Paint.on (colored : Bool) (paint : Paint) (text : String) : String :=
  if colored then paint.escape ++ text ++ "\x1b[0m" else text

def paintOf : Severity → Paint
  | .error => .red
  | .warning => .yellow
  | .info => .cyan
  | .hint => .green

def blanks (n : Nat) : String := String.ofList (List.replicate n ' ')

section

variable (colored : Bool)

/-- The physical line in its frame, with a mark below the column of the position. -/
def quotation (physical : Nat) (position : Option SourcePosition) (text : String) : String :=
  let bar := Paint.brightCyan.on colored "|"
  let margin := blanks (toString physical).length
  let mark := position.elim "" fun p =>
    margin ++ " " ++ bar ++ " " ++ blanks (p.column - 1) ++ Paint.red.on colored "^" ++ "\n"
  margin ++ " " ++ bar ++ "\n" ++
    Paint.brightCyan.on colored (toString physical) ++ " " ++ bar ++ " " ++ text ++ "\n" ++ mark

/-- Where the diagnostic belongs, as far as the file shows it. -/
def location (d : Diagnostic) (file : Option SourceFile) : String :=
  let arrow := "  " ++ Paint.brightCyan.on colored "-->"
  let physical := (do (← file).physicalLine? (← d.line)) <|> d.position.map SourcePosition.line
  match file, physical with
  | some f, some physical =>
    let program := d.line.elim "" fun line => " (line " ++ toString line ++ ")"
    arrow ++ " " ++ f.name ++ ":" ++ toString physical ++ program ++ "\n" ++
      ((f.line? physical).map (quotation colored physical d.position)).getD ""
  | _, _ => d.line.elim "" fun line => arrow ++ " line " ++ toString line ++ "\n"

/-- A diagnostic with its quotation and attachments. -/
def format (file : Option SourceFile) (d : Diagnostic) : String :=
  (paintOf d.severity).on colored d.heading ++ ": " ++
    Paint.boldWhite.on colored d.message ++ "\n" ++ location colored d file ++
    String.join (d.labels.map fun l =>
      "  " ++ (if l.isSecondary then "-" else "=") ++ " line " ++ toString l.line ++ ": " ++
        l.message ++ "\n") ++
    String.join (d.suggestions.map fun s =>
      Paint.yellow.on colored "suggestion" ++ ": " ++ s.message ++ " `" ++ s.replacement ++
        "`\n") ++
    String.join (d.help.map fun h =>
      "     " ++ Paint.green.on colored "help" ++ ": " ++ h ++ "\n") ++
    String.join (d.notes.map fun n => Paint.cyan.on colored "note" ++ ": " ++ n ++ "\n")

/-- Diagnostics with an empty line between any two. -/
def formatAll (file : Option SourceFile) (ds : List Diagnostic) : String :=
  "\n".intercalate (ds.map (format colored file))

end

end LineBasic.Diagnostic
