import LineBasic.Analysis.Config

/-!
# Arguments of the command line

A command with its file and options. Options may stand anywhere after the command, those for all
commands before it as well; after `--` everything is a file.
-/

namespace LineBasic

/-- How a report is written. -/
inductive ReportFormat where
  | text | json
  deriving DecidableEq, Repr

/-- What is to be done. -/
inductive Task where
  /-- Errors and warnings of a file. -/
  | check (file : String) (showStatistics : Bool)
  /-- The report on a file. -/
  | analyze (file : String) (format : ReportFormat) (showStatistics : Bool)
      (config : AnalysisConfig)
  /-- The list of the passes. -/
  | info
  deriving DecidableEq, Repr

structure Options where
  task : Task
  /-- The journal is shown down to the debug level. -/
  isVerbose : Bool
  isColored : Bool
  deriving DecidableEq, Repr

namespace Options

/-- The first word that is no option. -/
inductive Verb where
  | check | analyze | info
  deriving DecidableEq, Repr

def Verb.ofWord? : String → Option Verb
  | "check" => some .check
  | "analyze" => some .analyze
  | "info" => some .info
  | _ => none

/-- One argument or option with its value. -/
inductive Item where
  | file (path : String)
  | flag (name : String)
  | option (name value : String)
  deriving DecidableEq, Repr

/-- The options that take a value. -/
def valued : List String := ["--format", "--max-gosub-depth"]

/-- The name and the value of an option that are joined by an equals sign. -/
def splitEquals? (word : String) : Option (String × String) :=
  let name := word.toList.takeWhile fun c => c != '='
  match word.toList.drop name.length with
  | _ :: value => some (String.ofList name, String.ofList value)
  | [] => none

/-- The arguments after the command. -/
def items : List String → Except String (List Item)
  | [] => .ok []
  | "--" :: files => .ok (files.map .file)
  | [word] =>
    if valued.contains word then .error ("a value is required for '" ++ word ++ "'")
    else .ok [single word]
  | word :: next :: rest =>
    if valued.contains word then (items rest).map fun found => .option word next :: found
    else (items (next :: rest)).map fun found => single word :: found
where
  /-- A word that is an item of its own. -/
  single (word : String) : Item :=
    if !word.startsWith "-" || word == "-" then .file word
    else match splitEquals? word with
      | some (name, value) => .option name value
      | none => .flag (if word = "-v" then "--verbose" else word)

/-- A count, in decimal digits with an optional plus sign. -/
def count? (s : String) : Option Nat :=
  let digits := match s.toList with
    | '+' :: rest => rest
    | all => all
  if digits.isEmpty || !digits.all Char.isDigit then none
  else ((String.ofList digits).toNat?).filter fun n => n < 18446744073709551616

/-- The flags that switch a pass off. -/
def switchOff? (config : AnalysisConfig) : String → Option AnalysisConfig
  | "--no-cse" => some { config with commonSubexpressions := false }
  | "--no-strength-reduction" =>
    some { config with strengthReduction := false, booleanRules := false }
  | "--no-boolean" => some { config with booleanRules := false }
  | "--no-forward-substitution" => some { config with forwardSubstitution := false }
  | "--no-integer-ranges" => some { config with integerRanges := false }
  | "--no-uninitialized" => some { config with uninitialized := false }
  | "--no-loops" => some { config with loops := false }
  | _ => none

/-- What the arguments have asked for so far. -/
structure Request where
  file : Option String := none
  flags : List String := []
  format : ReportFormat := .text
  config : AnalysisConfig := {}

def unexpected (word : String) : String := "unexpected argument '" ++ word ++ "' found"

def invalid (value name : String) : String := "invalid value '" ++ value ++ "' for '" ++ name ++ "'"

/-- The request with one more item; a flag may be given only once. -/
def Request.add (verb : Verb) (r : Request) : Item → Except String Request
  | .file path =>
    if verb = .info || r.file.isSome then .error (unexpected path)
    else .ok { r with file := some path }
  | .option "--format" value =>
    match verb, value with
    | .analyze, "text" => .ok { r with format := .text }
    | .analyze, "json" => .ok { r with format := .json }
    | .analyze, _ => .error (invalid value "--format")
    | _, _ => .error (unexpected "--format")
  | .option "--max-gosub-depth" value =>
    match verb, count? value with
    | .analyze, some n => .ok { r with config := { r.config with maxCallDepth := n } }
    | .analyze, none => .error (invalid value "--max-gosub-depth")
    | _, _ => .error (unexpected "--max-gosub-depth")
  | .option name _ => .error (unexpected name)
  | .flag name =>
    let added := { r with flags := name :: r.flags }
    if r.flags.contains name then
      .error ("the argument '" ++ name ++ "' cannot be used multiple times")
    else if name = "--verbose" || name = "--color" then .ok added
    else if name = "--stats" && verb ≠ .info then .ok added
    else match verb, switchOff? r.config name with
      | .analyze, some config => .ok { added with config }
      | _, _ => .error (unexpected name)

/-- The options that a request stands for. -/
def Request.toOptions (verb : Verb) (r : Request) : Except String Options :=
  let ofTask (task : Task) : Options :=
    ⟨task, r.flags.contains "--verbose", r.flags.contains "--color"⟩
  let showStatistics := r.flags.contains "--stats"
  match verb, r.file with
  | .info, _ => .ok (ofTask .info)
  | .check, some file => .ok (ofTask (.check file showStatistics))
  | .analyze, some file => .ok (ofTask (.analyze file r.format showStatistics r.config))
  | _, none => .error "the following required arguments were not provided: <FILE>"

/-- The options that stand before the command, the command, and what follows it. -/
def splitVerb : List String → Except String (List String × Verb × List String)
  | [] => .error "a subcommand is required"
  | word :: rest =>
    if word.startsWith "-" then
      (splitVerb rest).map fun (before, verb, after) => (word :: before, verb, after)
    else match Verb.ofWord? word with
      | some verb => .ok ([], verb, rest)
      | none => .error ("unrecognized subcommand '" ++ word ++ "'")

/-- The words before the command can only be options for all commands. -/
def isGeneral (word : String) : Bool := word = "-v" || word = "--verbose" || word = "--color"

/-- The options in a list of arguments, or what is wrong with them. -/
def read (args : List String) : Except String Options := do
  let (before, verb, after) ← splitVerb args
  match before.find? fun word => !isGeneral word with
  | some word => .error (unexpected word)
  | none =>
    let general ← (← items before).foldlM (Request.add verb) ({} : Request)
    let request ← (← items after).foldlM (Request.add verb) ({} : Request)
    { request with flags := general.flags ++ request.flags }.toOptions verb

end Options

/-- The file that a task reads. -/
def Task.file? : Task → Option String
  | check file _ | analyze file .. => some file
  | info => none

/-- The analyses that a task needs. -/
def Task.config : Task → AnalysisConfig
  | analyze _ _ _ config => config
  | check .. | info => .diagnosticsOnly

end LineBasic
