import LineBasic.Grammar.Expression
import LineBasic.Program.Statement

/-!
# Reading statements

Each statement form has a parser of its own; `commandForms` lists them in the order in which they
are tried, and an assignment comes last. The arms of an `IF` hold statements again: their parser is
the argument `inner`, and `statementsNested` ties the knot as `nested` does for expressions.
-/

namespace LineBasic.Grammar

open LineBasic.Parser

/-- `LET`, which may be left out. -/
def assignForm : Parser Command := do
  let _ ← optional (keyword "LET")
  let target ← target
  let _ ← symbol "="
  return .assign target (← expression)

/-- The file number before a list, if there is one. -/
def channel : Parser (Option (Expr Float)) := optional do
  let _ ← symbol "#"
  let e ← expression
  let _ ← symbol ","
  return e

def printForm : Parser Command := do
  let _ ← keyword "PRINT" <|> keyword "LPRINT" <|> symbol "?"
  let channel ← channel
  let _ ← optional (keyword "USING")
  let items ← repeated do
    let _ ← blanks
    let rest ← remaining
    if atStatementEnd rest then return ([], false)
    else match ← attempt (exactly [','] <|> exactly [';']) with
      | some mark => return ([if mark == "," then .zone else .join], true)
      | none => return ([.expr (← expression)], true)
  return .print channel items

/-- The text that is shown before input is read. -/
def prompt : Parser (Option String) := do
  let _ ← optional (symbol ";")
  optional do
    let text ← quoted
    let _ ← symbol ";" <|> symbol ","
    return text

def inputForm : Parser Command := do
  let _ ← keyword "INPUT"
  let channel ← channel
  let prompt ← prompt
  return .input channel prompt (← separated1 (symbol ",") target)

def lineInputForm : Parser Command := do
  let _ ← keyword "LINE"
  let _ ← keyword "INPUT"
  let channel ← channel
  let prompt ← prompt
  return .lineInput channel prompt (← target)

def readForm : Parser Command := do
  let _ ← keyword "READ"
  return .read (← separated1 (symbol ",") target)

/-- The items between commas and what follows the list; quotes hide commas and colons. -/
def splitData : Bool → List Char → List (List Char) × List Char
  | _, [] => ([[]], [])
  | quoted, c :: rest =>
    if c = ':' && !quoted then ([[]], c :: rest)
    else
      let (items, after) := splitData (if c = '"' then !quoted else quoted) rest
      if c = ',' && !quoted then ([] :: items, after)
      else match items with
        | item :: others => ((c :: item) :: others, after)
        | [] => ([[c]], after)

/-- `DATA` goes on to the next colon that is not in quotes. -/
def dataForm : Parser Command := do
  let _ ← keyword "DATA"
  fun s =>
    let (items, rest) := splitData false s
    let trimmed := items.map Text.trim
    let shown := if trimmed == [[]] then [] else trimmed
    .accepted (.data (shown.map fun item => String.ofList (Text.trimChar '"' item))) rest

def restoreForm : Parser Command := do
  let _ ← keyword "RESTORE"
  return .restore (← optional wholeNumber)

def dimForm : Parser Command := do
  let _ ← keyword "DIM"
  let arrays ← separated1 (symbol ",") do
    let name ← variableName
    return { name, extents := ← arguments expression : ArrayDecl }
  return .dim arrays

def optionBaseForm : Parser Command := do
  let _ ← keyword "OPTION"
  let _ ← keyword "BASE"
  return .optionBase (← wholeNumber)

/-- A letter, in upper case. -/
def letter : Parser Char := do
  let _ ← blanks
  return (← satisfy Char.isAlpha).toUpper

/-- The words that give types to names by their first letter. -/
def typeWords : List (String × StorageType) :=
  [("DEFINT", .integer), ("DEFSNG", .single), ("DEFDBL", .double), ("DEFSTR", .string)]

def defTypeForm : Parser Command := do
  let type ← firstOf (typeWords.map fun (w, type) => do
    let _ ← keyword w
    return type)
  let ranges ← separated1 (symbol ",") do
    let first ← letter
    let last ← optional (do
      let _ ← symbol "-"
      letter)
    return (first, last.getD first)
  return .defType type ranges

def defFnForm : Parser Command := do
  let _ ← keyword "DEF"
  let name ← functionName
  let params ← optional (do
    let _ ← symbol "("
    let params ← separated (symbol ",") variableName
    let _ ← symbol ")"
    return params)
  let _ ← symbol "="
  return .defFn name (params.getD []) (← expression)

def forForm : Parser Command := do
  let _ ← keyword "FOR"
  let counter ← variableName
  let _ ← symbol "="
  let start ← expression
  let _ ← keyword "TO"
  let stop ← expression
  let step ← optional (do
    let _ ← keyword "STEP"
    expression)
  return .forLoop counter start stop step

def nextForm : Parser Command := do
  let _ ← keyword "NEXT"
  return .next (← separated (symbol ",") variableName)

def whileForm : Parser Command := do
  let _ ← keyword "WHILE"
  return .whileLoop (← expression)

def gotoForm : Parser Command := do
  let _ ← keyword "GOTO"
  return .goto (← wholeNumber)

def gosubForm : Parser Command := do
  let _ ← keyword "GOSUB"
  return .gosub (← wholeNumber)

/-- `ON ERROR GOTO`, `ON ... GOTO` and `ON ... GOSUB`. -/
def onForm : Parser Command := do
  let _ ← keyword "ON"
  match ← attempt (keyword "ERROR") with
  | some _ =>
    let _ ← keyword "GOTO"
    return .onError (← wholeNumber)
  | none =>
    let selector ← expression
    let form ← (do
      let _ ← keyword "GOTO"
      return Command.onGoto) <|> (do
      let _ ← keyword "GOSUB"
      return Command.onGosub)
    return form selector (← separated1 (symbol ",") wholeNumber)

def resumeForm : Parser Command := do
  let _ ← keyword "RESUME"
  match ← attempt (keyword "NEXT") with
  | some _ => return .resume .next
  | none =>
    match ← optional wholeNumber with
    | none | some 0 => return .resume .retry
    | some line => return .resume (.line line)

/-- A keyword that is a statement of its own. -/
def bareForm (w : String) (command : Command) : Parser Command := do
  let _ ← keyword w
  return command

def swapForm : Parser Command := do
  let _ ← keyword "SWAP"
  let left ← target
  let _ ← symbol ","
  return .swap left (← target)

def randomizeForm : Parser Command := do
  let _ ← keyword "RANDOMIZE"
  if atStatementEnd (← remaining) then return .randomize none
  else return .randomize (some (← expression))

/-- Names separated by commas, each perhaps with an empty pair of parentheses. -/
def nameList : Parser (List Name) := separated1 (symbol ",") do
  let name ← variableName
  let _ ← optional (do
    let _ ← symbol "("
    symbol ")")
  return name

def commonForm : Parser Command := do
  let _ ← keyword "COMMON"
  return .common (← nameList)

def eraseForm : Parser Command := do
  let _ ← keyword "ERASE"
  return .erase (← nameList)

/-- A remark takes all that is left of the line. -/
def remarkForm : Parser Command := do
  let _ ← blanks
  let _ ← word "REM" <|> exactly ['\'']
  fun s => .accepted (.remark (String.ofList (Text.trim s))) []

/-- Commands of the interactive prompt. -/
def promptWords : List String :=
  ["LIST", "LOAD", "SAVE", "MERGE", "NEW", "CONT", "DELETE", "RENUM"]

/-- A command of the prompt goes on to the next colon. -/
def interactiveForm (w : String) : Parser Command := do
  let _ ← keyword w
  return .interactive w (String.ofList (Text.trim (← takeWhile (· != ':'))))

/-- Keywords of statements that are kept as a list of expressions. -/
def deviceWords : List String :=
  ["CLS", "BEEP", "POKE", "OUT", "WIDTH", "CLOSE", "OPEN", "KILL", "WAIT", "CLEAR", "CALL",
    "CHAIN", "RUN", "SYSTEM", "WRITE", "FIELD", "GET", "PUT", "LSET", "RSET"]

/-- The first of some keywords that stands here. -/
def keywordOf (words : List String) : Parser String :=
  firstOf (words.map fun w => do
    let _ ← keyword w
    return w)

/-- A keyword and expressions with any separators between them. -/
def deviceForm : Parser Command := do
  let w ← keywordOf deviceWords
  let args ← repeated do
    let _ ← blanks
    if atStatementEnd (← remaining) then return ([], false)
    else match ← attempt (exactly [','] <|> exactly [';'] <|> exactly ['#'] <|> keyword "AS") with
      | some _ => return ([], true)
      | none => return ([← expression], true)
  return .device w args

/-- The forms that are tried after `IF`, in order. -/
def commandForms : List (Parser Command) :=
  [forForm, nextForm, whileForm, gotoForm, gosubForm, bareForm "RETURN" .returnSub, onForm,
    resumeForm, lineInputForm, inputForm, readForm, dataForm, restoreForm, dimForm, optionBaseForm,
    defTypeForm, defFnForm, bareForm "END" .endRun, bareForm "STOP" .stopRun, bareForm "WEND" .wend,
    bareForm "TRON" .traceOn, bareForm "TROFF" .traceOff, swapForm, randomizeForm, commonForm,
    eraseForm] ++ promptWords.map interactiveForm ++ [deviceForm, assignForm]

section

variable (inner : Parser (List Statement))

/-- What stands after `THEN` or `ELSE`: a line number alone, or statements. -/
def arm : Parser Arm := fun s =>
  match wholeNumber s with
  | .accepted n rest =>
    if atStatementEnd rest then .accepted (.line n) rest else (Arm.block <$> inner) s
  | _ => (Arm.block <$> inner) s

/-- The arm after `THEN`; `GOTO` and a line number may stand for it. -/
def thenArm : Parser Arm :=
  (do
    let _ ← keyword "THEN"
    arm inner) <|> (do
    let _ ← keyword "GOTO"
    return .line (← wholeNumber))

/-- An `IF` statement at a place. -/
def conditionalForm (place : Place) : Parser Statement := do
  let _ ← keyword "IF"
  let condition ← expression
  let onTrue ← thenArm inner
  let onFalse ← optional (do
    let _ ← keyword "ELSE"
    arm inner)
  return .conditional place condition onTrue onFalse

/-- A statement of the line `number`, whose text has `size` bytes. -/
def statementWith (size number : Nat) : Parser Statement := do
  let _ ← blanks
  let place : Place := ⟨number, size - Text.byteSize (← remaining) + 1⟩
  firstOf ([Statement.command place <$> remarkForm, Statement.command place <$> printForm,
    conditionalForm inner place] ++ commandForms.map fun form => Statement.command place <$> form)

/-- Statements between colons, up to `ELSE` or the end of the line; there may be none. -/
def statementsWith (size number : Nat) : Parser (List Statement) := repeated do
  let _ ← blanks
  match ← remaining with
  | [] => return ([], false)
  | ':' :: _ =>
    let _ ← exactly [':']
    return ([], true)
  | rest =>
    if (keyword "ELSE").accepts rest then return ([], false)
    else
      let statement ← statementWith inner size number
      let _ ← blanks
      match ← remaining with
      | ':' :: _ | '\'' :: _ => return ([statement], true)
      | _ => return ([statement], false)

end

/-- Statements with `IF` nested less than `depth` deep. -/
def statementsNested (size number : Nat) : Nat → Parser (List Statement)
  | 0 => refuse
  | depth + 1 => statementsWith (statementsNested size number depth) size number

/-- The statements of a line, or of an arm. -/
def statements (size number : Nat) : Parser (List Statement) := fun s =>
  statementsNested size number (s.length + 1) s

/-- One statement. -/
def statement (size number : Nat) : Parser Statement := fun s =>
  statementWith (statementsNested size number (s.length + 1)) size number s

/-- A numbered line, which has to be read to its end. -/
def programLine (sourceLine : Nat) : Parser ProgramLine := fun text =>
  (do
    let number ← wholeNumber
    let statements ← statements (Text.byteSize text) number
    let _ ← blanks
    match ← remaining with
    | [] => return { number, statements, sourceLine }
    | _ => refuse : Parser ProgramLine) text

end LineBasic.Grammar
