import LineBasic.Text.Lines

/-!
# Faults of regular expressions

A fault has a cause and the stretch of the expression that it concerns; a cause that names something
twice also has the first stretch. `Fault.text` quotes the expression line by line, marks the
stretches that stand on one line, and describes those that do not.
-/

namespace LineBasic.Regex

/-- The characters from the place `start` up to the place `stop`. -/
structure Span where
  start : Nat
  stop : Nat
  deriving DecidableEq, Repr

/-- Why an expression is refused. -/
inductive FaultCause where
  | classEscape | classRangeOrder | classRangeBoundary | classUnclosed
  | numberTooLarge
  | hexadecimalEmpty | hexadecimalNoCharacter | hexadecimalDigit
  | escapeUnfinished | escapeUnknown
  | flagNegationDangling | flagNegationRepeated (first : Span) | flagRepeated (first : Span)
  | flagsUnfinished | flagUnknown
  | groupNameRepeated (first : Span) | groupNameEmpty | groupNameCharacter | groupNameUnfinished
  | groupUnclosed | groupUnopened
  | nestingTooDeep (limit : Nat)
  | countOrder | countEmpty | countUnclosed
  | operandMissing
  | wordEdgeUnclosed | wordEdgeUnknown | wordEdgeUnfinished
  | propertyForm
  | backReference | lookAround
  /-- A set or a character that is only there with the Unicode flag. -/
  | unicodeForbidden
  /-- The expression could match a part of a character. -/
  | partialCharacter
  | propertyUnknown | propertyValueUnknown | shorthandUnavailable | caseUnavailable

namespace FaultCause

def message : FaultCause → String
  | classEscape => "invalid escape sequence found in character class"
  | classRangeOrder => "invalid character class range, the start must be <= the end"
  | classRangeBoundary => "invalid range boundary, must be a literal"
  | classUnclosed => "unclosed character class"
  | numberTooLarge => "decimal literal invalid"
  | hexadecimalEmpty => "hexadecimal literal empty"
  | hexadecimalNoCharacter => "hexadecimal literal is not a Unicode scalar value"
  | hexadecimalDigit => "invalid hexadecimal digit"
  | escapeUnfinished => "incomplete escape sequence, reached end of pattern prematurely"
  | escapeUnknown => "unrecognized escape sequence"
  | flagNegationDangling => "dangling flag negation operator"
  | flagNegationRepeated _ => "flag negation operator repeated"
  | flagRepeated _ => "duplicate flag"
  | flagsUnfinished => "expected flag but got end of regex"
  | flagUnknown => "unrecognized flag"
  | groupNameRepeated _ => "duplicate capture group name"
  | groupNameEmpty => "empty capture group name"
  | groupNameCharacter => "invalid capture group character"
  | groupNameUnfinished => "unclosed capture group name"
  | groupUnclosed => "unclosed group"
  | groupUnopened => "unopened group"
  | nestingTooDeep limit =>
    "exceed the maximum number of nested parentheses/brackets (" ++ toString limit ++ ")"
  | countOrder => "invalid repetition count range, the start must be <= the end"
  | countEmpty => "repetition quantifier expects a valid decimal"
  | countUnclosed => "unclosed counted repetition"
  | operandMissing => "repetition operator missing expression"
  | wordEdgeUnclosed =>
    "special word boundary assertion is either unclosed or contains an invalid character"
  | wordEdgeUnknown =>
    "unrecognized special word boundary assertion, valid choices are: start, end, start-half " ++
      "or end-half"
  | wordEdgeUnfinished =>
    "found either the beginning of a special word boundary or a bounded repetition on a \\b " ++
      "with an opening brace, but no closing brace"
  | propertyForm => "invalid Unicode character class"
  | backReference => "backreferences are not supported"
  | lookAround => "look-around, including look-ahead and look-behind, is not supported"
  | unicodeForbidden => "Unicode not allowed here"
  | partialCharacter => "pattern can match invalid UTF-8"
  | propertyUnknown => "Unicode property not found"
  | propertyValueUnknown => "Unicode property value not found"
  | shorthandUnavailable =>
    "Unicode-aware Perl class not found (make sure the unicode-perl feature is enabled)"
  | caseUnavailable =>
    "Unicode-aware case insensitivity matching is not available " ++
      "(make sure the unicode-case feature is enabled)"

/-- Where the thing that is named twice was named first. -/
def first? : FaultCause → Option Span
  | flagNegationRepeated first | flagRepeated first | groupNameRepeated first => some first
  | _ => none

end FaultCause

structure Fault where
  cause : FaultCause
  span : Span

/-! ## Quotation -/

/-- The line of a place and the place in that line, both counted from zero. -/
def coordinates (pattern : List Char) (place : Nat) : Nat × Nat :=
  let before := pattern.take place
  (before.count '\n', (before.reverse.takeWhile (· != '\n')).length)

namespace Span

def isOneLine (pattern : List Char) (s : Span) : Bool :=
  (coordinates pattern s.start).1 == (coordinates pattern s.stop).1

/-- Adds the marks of a stretch to a line of marks. -/
def mark (pattern : List Char) (marks : List Char) (s : Span) : List Char :=
  let first := (coordinates pattern s.start).2
  let last := (coordinates pattern s.stop).2
  marks ++ List.replicate (first - marks.length) ' ' ++ List.replicate (max 1 (last - first)) '^'

/-- A stretch over several lines, in words; its end is the last character inside it. -/
def description (pattern : List Char) (s : Span) : String :=
  let (startLine, startColumn) := coordinates pattern s.start
  let (stopLine, stopColumn) := coordinates pattern s.stop
  s!"on line {startLine + 1} (column {startColumn + 1}) " ++
    s!"through line {stopLine + 1} (column {stopColumn})"

end Span

namespace Fault

/-- The stretches that the fault concerns, in the order of the expression. -/
def spans (f : Fault) : List Span :=
  (f.span :: f.cause.first?.toList).mergeSort fun a b =>
    a.start < b.start || (a.start == b.start && a.stop ≤ b.stop)

/-- How many digits line numbers have; none are written if there is one line. -/
def numberWidth (pattern : List Char) : Nat :=
  let lines := (Text.lines pattern).length + (if pattern.getLast? = some '\n' then 1 else 0)
  if lines ≤ 1 then 0 else (toString lines).length

/-- What stands in front of a quoted line. -/
def margin (width index : Nat) : List Char :=
  if width = 0 then List.replicate 4 ' '
  else
    let number := toString (index + 1)
    List.replicate (width - number.length) ' ' ++ number.toList ++ ": ".toList

/-- A line of the expression, and the marks under it. -/
def quotedLine (pattern : List Char) (f : Fault) (line : List Char) (index : Nat) : List Char :=
  let front := margin (numberWidth pattern) index
  let spans := f.spans.filter fun s =>
    s.isOneLine pattern && (coordinates pattern s.start).1 == index
  let marks := spans.foldl (Span.mark pattern) []
  front ++ line ++ ['\n'] ++
    (if spans.isEmpty then [] else List.replicate front.length ' ' ++ marks ++ ['\n'])

def quotation (pattern : List Char) (f : Fault) : String :=
  String.ofList ((Text.lines pattern).mapIdx fun i line => quotedLine pattern f line i).flatten

/-- The stretches that have no marks, a line for all of them. -/
def descriptions (pattern : List Char) (f : Fault) : String :=
  match f.spans.filter fun s => !s.isOneLine pattern with
  | [] => ""
  | long => "\n".intercalate (long.map (Span.description pattern)) ++ "\n"

/-- The fault with a quotation, set off by two rules if the expression has several lines. -/
def text (pattern : List Char) (f : Fault) : String :=
  let rule := String.ofList (List.replicate 79 '~') ++ "\n"
  "regex parse error:\n" ++
    (if pattern.contains '\n' then
      rule ++ f.quotation pattern ++ rule ++ f.descriptions pattern
    else f.quotation pattern) ++
    "error: " ++ f.cause.message

end Fault
end LineBasic.Regex
