import LineBasic.Regex.Cursor
import LineBasic.Regex.Tree

/-!
# Reading single characters and escapes

After a backslash a letter has a meaning of its own or none, a digit would refer to a group, and any
other ASCII character but `<` and `>` stands for itself.
-/

namespace LineBasic.Regex

open Scan

/-- The character with a number; there is none for surrogates and above the last plane. -/
def character? (n : Nat) : Option Char :=
  if n < 0xD800 || (0xDFFF < n && n < 0x110000) then some (Char.ofNat n) else none

/-- `n` hexadecimal digits. -/
def hexDigits : Nat → Scan (List Char)
  | 0 => return []
  | n + 1 => do
    match ← current? with
    | none => failHere .escapeUnfinished
    | some c =>
      if Text.isHexDigit c then
        advanceSkipping
        return c :: (← hexDigits n)
      else failOnCharacter .hexadecimalDigit

/-- Hexadecimal digits in braces. -/
def bracedHexadecimal : Scan Char := do
  let brace ← here
  advanceSkipping
  let digits ← Scan.takeWhile Text.isHexDigit
  match ← current? with
  | none => failFrom .escapeUnfinished brace
  | some '\x7d' =>
    let stop ← here
    advanceSkipping
    if digits.isEmpty then failFrom .hexadecimalEmpty brace
    else match character? (Text.ofHexadecimal digits) with
      | some c => return c
      | none => fail .hexadecimalNoCharacter (brace + 1) stop
  | some _ => failOnCharacter .hexadecimalDigit

/-- A character by its number, after a letter that tells how many digits it has. -/
def hexadecimal (start size : Nat) : Scan Literal := do
  advanceSkipping
  match ← current? with
  | none => failHere .escapeUnfinished
  | some '\x7b' =>
    let c ← bracedHexadecimal
    return ⟨⟨start, ← here⟩, c, false⟩
  | some _ =>
    let first ← here
    let digits ← hexDigits size
    match character? (Text.ofHexadecimal digits) with
    | some c => return ⟨⟨start, ← here⟩, c, size == 2⟩
    | none => failFrom .hexadecimalNoCharacter first

/-- A property, after the letter `p` or `P`. -/
def property (start : Nat) (isNegated : Bool) : Scan Member := do
  advanceSkipping
  match ← current? with
  | none => failHere .escapeUnfinished
  | some '\\' => failOnCharacter .propertyForm
  | some '\x7b' =>
    advanceSkipping
    let name ← Scan.takeWhile (· != '\x7d')
    if ← isAtEnd then failHere .escapeUnfinished
    advance
    let isValued := name.any fun c => c == ':' || c == '='
    let found := if isValued then Property.valued else .named (String.ofList name)
    return .property ⟨start, ← here⟩ found isNegated
  | some c =>
    advanceSkipping
    return .property ⟨start, ← here⟩ (.named (String.singleton c)) isNegated

def wordEdgeOf? : String → Option WordEdge
  | "start" => some .start
  | "end" => some .stop
  | "start-half" => some .startHalf
  | "end-half" => some .stopHalf
  | _ => none

/-- The name of an edge of a word in braces. Braces around something else are left for a
repetition. -/
def wordEdge? (start : Nat) : Scan (Option WordEdge) := do
  let opening ← get
  advanceOr .wordEdgeUnfinished start
  let contents ← here
  let isNameCharacter (c : Char) : Bool := c.isAlpha || c == '-'
  if !(← current?).any isNameCharacter then
    set opening
    return none
  let name ← Scan.takeWhile isNameCharacter
  if (← current?) ≠ some '\x7d' then failFrom .wordEdgeUnclosed opening.place
  let stop ← here
  advance
  match wordEdgeOf? (String.ofList name) with
  | some edge => return some edge
  | none => fail .wordEdgeUnknown contents stop

/-- The characters that have a letter. -/
def controlCharacter? : Char → Option Char
  | 'a' => some '\x07'
  | 'f' => some '\x0c'
  | 't' => some '\t'
  | 'n' => some '\n'
  | 'r' => some '\r'
  | 'v' => some '\x0b'
  | _ => none

def Shorthand.ofLetter? : Char → Option Shorthand
  | 'd' | 'D' => some .digit
  | 's' | 'S' => some .space
  | 'w' | 'W' => some .word
  | _ => none

def Assertion.ofLetter? : Char → Option Assertion
  | 'A' => some .textStart
  | 'z' => some .textEnd
  | 'b' => some (.word .boundary)
  | 'B' => some (.word .elsewhere)
  | '<' => some (.word .start)
  | '>' => some (.word .stop)
  | _ => none

/-- An escape of one letter, which has been passed. -/
def letterEscape (start : Nat) (c : Char) : Scan Atom := do
  let span : Span := ⟨start, ← here⟩
  if c.toNat < 128 && !c.isAlphanum && c != '<' && c != '>' then
    return .member (.literal ⟨span, c, false⟩)
  else if let some control := controlCharacter? c then
    return .member (.literal ⟨span, control, false⟩)
  else match Assertion.ofLetter? c with
    | none => throw ⟨.escapeUnknown, span⟩
    | some kind =>
      if c == 'b' && (← current?) = some '\x7b' then
        if let some edge ← wordEdge? start then
          return .assertion ⟨start, ← here⟩ (.word edge)
      return .assertion span kind

/-- What a backslash and the characters after it stand for. -/
def escape : Scan Atom := do
  let start ← here
  advance
  match ← current? with
  | none => failFrom .escapeUnfinished start
  | some c =>
    if c.isDigit then fail .backReference start ((← here) + 1)
    else if c == 'x' then return .member (.literal (← hexadecimal start 2))
    else if c == 'u' then return .member (.literal (← hexadecimal start 4))
    else if c == 'U' then return .member (.literal (← hexadecimal start 8))
    else if c == 'p' || c == 'P' then return .member (← property start (c == 'P'))
    else
      advance
      match Shorthand.ofLetter? c with
      | some kind => return .member (.shorthand ⟨start, ← here⟩ kind c.isUpper)
      | none => letterEscape start c

/-- The current character for itself. -/
def verbatim (c : Char) : Scan Literal := do
  let place ← here
  advance
  return ⟨⟨place, place + 1⟩, c, false⟩

/-- A part that is no group, class or repetition. -/
def atom (c : Char) : Scan Atom := do
  let place ← here
  let span : Span := ⟨place, place + 1⟩
  match c with
  | '\\' => escape
  | '.' => advance; return .dot span
  | '^' => advance; return .assertion span .lineStart
  | '$' => advance; return .assertion span .lineEnd
  | c => return .member (.literal (← verbatim c))

end LineBasic.Regex
