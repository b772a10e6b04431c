import LineBasic.Grammar.Parser
import LineBasic.Expr.Name
import LineBasic.Expr.Operator
import LineBasic.Decimal.Basic

/-!
# Words, names and numbers

The smallest parts of a line. Each of them skips the blanks before it, and a failure stands after
those blanks. Words are compared without regard to case; a word that is followed by a letter is the
start of a longer name and no keyword.
-/

namespace LineBasic.Grammar

open LineBasic.Parser

/-- Skips spaces and tabs. -/
def blanks : Parser (List Char) := takeWhile Text.isBlank

/-- A character folded for comparison: ASCII letters, and the Kelvin sign, which folds to `k`. -/
def foldCase (c : Char) : Char := if c = '\u212a' then 'k' else c.toLower

/-- The two texts agree as far as both go. -/
def agrees : List Char → List Char → Bool
  | a :: as, b :: bs => foldCase a == foldCase b && agrees as bs
  | _, _ => true

/-- The bytes of a word, compared without regard to case. -/
def word (w : String) : Parser String := fun s =>
  if agrees s w.toList then
    match Text.splitBytes? w.utf8ByteSize s with
    | some (front, rest) => .accepted (String.ofList front) rest
    | none => .refused s
  else .refused s

/-- A word that no letter follows. -/
def keyword (w : String) : Parser String := do
  let _ ← blanks
  wholly do
    let found ← word w
    match ← remaining with
    | c :: _ => if c.isAlpha then refuse else return found
    | [] => return found

/-- The exact characters of `sign`, as they stand. -/
def exactly (sign : List Char) : Parser String := fun s =>
  if sign.isPrefixOf s then .accepted (String.ofList sign) (s.drop sign.length) else .refused s

/-- A punctuation mark. -/
def symbol (sign : String) : Parser String := do
  let _ ← blanks
  exactly sign.toList

/-- Words that are no names of variables. -/
def reserved : List String :=
  ["AND", "OR", "NOT", "XOR", "EQV", "IMP", "MOD", "TO", "STEP", "THEN", "ELSE", "GOTO", "GOSUB",
    "PRINT", "IF", "FOR", "NEXT", "LET", "INPUT", "READ", "DATA", "DIM", "REM", "END", "STOP",
    "RETURN", "ON", "ERROR", "RESUME", "WHILE", "WEND", "USING", "LINE", "SWAP", "DEF", "OPTION",
    "BASE"]

/-- A letter, then letters, digits and points, then perhaps a type suffix. -/
def spelledName : Parser (List Char) := do
  let first ← satisfy Char.isAlpha
  let middle ← takeWhile fun c => c.isAlphanum || c == '.'
  let suffix ← optional (satisfy fun c => (StorageType.ofSuffix? c).isSome)
  return first :: middle ++ suffix.toList

/-- A word that may name a variable: not reserved, and not in the name space of functions. -/
def isVariableName (name : Name) : Bool :=
  !reserved.contains name.key && !List.isPrefixOf ['F', 'N'] name.key.toList

/-- The name of a variable or an array. -/
def variableName : Parser Name := do
  let _ ← blanks
  wholly do
    let name : Name := ⟨String.ofList (← spelledName)⟩
    if isVariableName name then return name else refuse

/-- The name of a user function: the word `FN` and a name, which blanks may keep apart. -/
def functionName : Parser Name := do
  let _ ← blanks
  let fn ← word "FN"
  let _ ← blanks
  let name ← spelledName
  return ⟨fn ++ String.ofList name⟩

/-- A whole number below `2 ^ 32`. -/
def wholeNumber : Parser Nat := do
  let _ ← blanks
  wholly do
    let n := Text.ofDecimal (← takeWhile1 Char.isDigit)
    if n < 4294967296 then return n else refuse

/-- A string in quotes; the closing quote may be missing at the end of the line. -/
def quoted : Parser String := do
  let _ ← blanks
  let _ ← satisfy (· == '"')
  let body ← takeWhile (· != '"')
  let _ ← optional (satisfy (· == '"'))
  return String.ofList body

/-- The digits of a number before and after the point, at least one of them. -/
def mantissa : Parser (List Char × List Char) := do
  match ← optional (takeWhile1 Char.isDigit) with
  | some front =>
    match ← optional (satisfy (· == '.')) with
    | some _ => return (front, ← takeWhile Char.isDigit)
    | none => return (front, [])
  | none =>
    let _ ← satisfy (· == '.')
    return ([], ← takeWhile1 Char.isDigit)

/-- The power of ten after the letter `E`, which has to have digits. -/
def exponentPart : Parser Int := do
  let _ ← satisfy fun c => c == 'e' || c == 'E'
  let sign ← optional (satisfy fun c => c == '+' || c == '-')
  let digits ← committed (takeWhile1 Char.isDigit)
  let size := Text.ofDecimal digits
  return if sign = some '-' then -(size : Int) else size

/-- A decimal number and perhaps the suffix of a numeric type. -/
def decimal : Parser Decimal := do
  let (front, back) ← mantissa
  let exponent := (← optional exponentPart).getD 0
  let _ ← optional (satisfy fun c => (StorageType.ofSuffix? c).any StorageType.isNumeric)
  return ⟨Text.ofDecimal (front ++ back), exponent - back.length⟩

/-- A number in base 16 after `&H`; from `2 ^ 63` on it counts as zero. -/
def hexadecimal : Parser Nat := do
  let _ ← word "&H"
  let digits ← takeWhile1 Text.isHexDigit
  let n := Text.ofHexadecimal digits
  return if n < 9223372036854775808 then n else 0

/-- A number with its spelling. -/
def number : Parser (Float × String) := do
  let _ ← blanks
  let start ← remaining
  let value ← match ← attempt hexadecimal with
    | some n => Pure.pure (Float.ofNat n)
    | none => Decimal.toFloat <$> decimal
  let rest ← remaining
  return (value, String.ofList (start.take (start.length - rest.length)))

/-- The statement has ended: at a colon, a remark, `ELSE`, or the end of the line. -/
def atStatementEnd (s : List Char) : Bool :=
  match Text.trimStart s with
  | [] => true
  | ':' :: _ => true
  | '\'' :: _ => true
  | rest => (keyword "ELSE").accepts rest

end LineBasic.Grammar
