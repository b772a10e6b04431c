import LineBasic.Regex.Bracket
import LineBasic.Text.Letter

/-!
# Reading regular expressions

Alternatives are separated by bars and consist of parts one after the other; a part can be repeated,
and a group in parentheses is a part. A group that begins with a question mark switches flags, up to
the end of the group around it, or for its own body if a colon follows them.
-/

namespace LineBasic.Regex

open Scan

/-! ## Repetition -/

/-- The part in front of a repetition, and the parts before it. -/
def operand (parts : List Tree) : Scan (Tree × List Tree) :=
  match parts with
  | [] | .empty _ :: _ | .flags .. :: _ => failHere .operandMissing
  | body :: rest => return (body, rest)

/-- A question mark after a repetition changes what it prefers, not what it allows. -/
def preference : Scan Unit := do
  if (← current?) = some '?' then advance

/-- The part before the cursor, repeated as a mark says. -/
def marked (least : Nat) (most : Option Nat) (parts : List Tree) : Scan (List Tree) := do
  let (body, rest) ← operand parts
  advance
  preference
  return .repetition ⟨body.span.start, ← here⟩ least most body :: rest

/-- A number of repetitions. What is wrong with it is reported later, if at all. -/
def count : Scan (Except Fault Nat) := do
  modify fun c => c.moveTo (c.rest.dropWhile Text.isWhite)
  let start ← here
  let digits ← Scan.takeWhile Char.isDigit
  let span : Span := ⟨start, ← here⟩
  let _ ← Scan.takeWhile Text.isWhite
  let n := Text.ofDecimal digits
  if digits.isEmpty then return .error ⟨.countEmpty, span⟩
  else if 4294967296 ≤ n then return .error ⟨.numberTooLarge, span⟩
  else return .ok n

/-- The bounds in the braces of a repetition that begins at `start`. -/
def bounds (start : Nat) : Scan (Nat × Option Nat) := do
  let least ← count
  match ← current? with
  | none => failFrom .countUnclosed start
  | some ',' =>
    advanceOr .countUnclosed start
    if (← current?) = some '\x7d' then return (← liftExcept least, none)
    else
      let least ← liftExcept least
      let most ← liftExcept (← count)
      return (least, some most)
  | some _ =>
    let n ← liftExcept least
    return (n, some n)
where
  liftExcept (r : Except Fault Nat) : Scan Nat :=
    match r with
    | .ok n => return n
    | .error fault => throw fault

/-- The part before the cursor, repeated as often as braces say. -/
def counted (parts : List Tree) : Scan (List Tree) := do
  let start ← here
  let (body, rest) ← operand parts
  advanceOr .countUnclosed start
  let (least, most) ← bounds start
  if (← current?) ≠ some '\x7d' then failFrom .countUnclosed start
  advanceSkipping
  preference
  if most.any (· < least) then failFrom .countOrder start
  return .repetition ⟨body.span.start, ← here⟩ least most body :: rest

/-! ## Groups -/

def isNameStart (c : Char) : Bool := c == '_' || Text.isLetter c

def isNamePart (c : Char) : Bool :=
  c == '_' || c == '.' || c == '[' || c == ']' || Text.isLetterOrNumber c

/-- Where a name has a character that cannot stand there. -/
def wrongCharacter? (name : List Char) : Option Nat :=
  match name with
  | [] => none
  | first :: rest =>
    if isNameStart first then (rest.findIdx? fun c => !isNamePart c).map (· + 1) else some 0

/-- The name of a group, up to an angle bracket. -/
def groupName : Scan Unit := do
  let c ← get
  let start := c.place
  let name := c.rest.takeWhile (· != '>')
  let stop := start + name.length
  match wrongCharacter? name with
  | some i => fail .groupNameCharacter (start + i) (start + i + 1)
  | none =>
    if c.rest.length = name.length then fail .groupNameUnfinished stop stop
    else if name.isEmpty then fail .groupNameEmpty start start
    else match c.names.lookup (String.ofList name) with
      | some first => fail (.groupNameRepeated first) start stop
      | none =>
        let names := (String.ofList name, ⟨start, stop⟩) :: c.names
        set { c.moveTo (c.rest.drop (name.length + 1)) with names }

def Flag.ofLetter? : Char → Option Flag
  | 'i' => some .ignoreCase
  | 'm' => some .multiLine
  | 's' => some .dotAll
  | 'U' => some .swapGreed
  | 'u' => some .unicode
  | 'R' => some .crlf
  | 'x' => some .loose
  | _ => none

/-- Flags that are being read. -/
structure FlagState where
  /-- The flags so far, each with its place, the last one first. -/
  seen : List (Flag × Bool × Span)
  /-- Where the flags that are switched off begin. -/
  negation : Option Span
  /-- No flag has followed the hyphen. -/
  isDangling : Bool

/-- Flags up to a colon or a closing parenthesis. -/
def flagChanges : Nat → FlagState → Scan FlagChanges
  | 0, s => return s.seen.map fun (flag, isOn, _) => (flag, isOn)
  | fuel + 1, s => do
    let place ← here
    let span : Span := ⟨place, place + 1⟩
    match ← current? with
    | none => failHere .flagsUnfinished
    | some c =>
      if c == ':' || c == ')' then
        match s.negation with
        | some negation => if s.isDangling then throw ⟨.flagNegationDangling, negation⟩
        | none => pure ()
        return s.seen.map fun (flag, isOn, _) => (flag, isOn)
      else if c == '-' then
        if let some first := s.negation then failOnCharacter (.flagNegationRepeated first)
        advance
        flagChanges fuel { s with negation := some span, isDangling := true }
      else match Flag.ofLetter? c with
        | none => failOnCharacter .flagUnknown
        | some flag =>
          if let some (_, first) := s.seen.lookup flag then failOnCharacter (.flagRepeated first)
          advance
          flagChanges fuel
            { s with seen := (flag, s.negation.isNone, span) :: s.seen, isDangling := false }

/-- The beginning of a group, or the whole of a group that only switches flags. -/
inductive GroupHead where
  | directive (span : Span) (changes : FlagChanges)
  | body (span : Span) (changes : FlagChanges) (isCaptured : Bool)

/-- Moves past the first of several texts that stands here. -/
def eatAny : List String → Scan Bool
  | [] => return false
  | text :: others => do
    if ← eat text then return true
    else eatAny others

def groupHead : Scan GroupHead := do
  let start ← here
  let span : Span := ⟨start, start + 1⟩
  advance
  Scan.skip
  if ← eatAny ["?=", "?!", "?<=", "?<!"] then failFrom .lookAround start
  let mark ← here
  if ← eatAny ["?P<", "?<"] then
    groupName
    return .body span [] true
  else if ← eat "?" then
    if ← isAtEnd then throw ⟨.groupUnclosed, span⟩
    let changes ← flagChanges ((← get).rest.length + 1) ⟨[], none, false⟩
    let closing ← current?
    advance
    if closing = some ')' then
      if changes.isEmpty then fail .operandMissing mark mark
      return .directive ⟨start, ← here⟩ changes
    else return .body span changes false
  else return .body span [] true

/-! ## Alternatives -/

/-- Alternatives that are being read. -/
structure BranchState where
  /-- Where the first one begins. -/
  first : Nat
  /-- Those that are complete, the last one first. -/
  branches : List Tree
  /-- Where the current one begins. -/
  start : Nat
  /-- The parts of the current one, the last one first. -/
  parts : List Tree

namespace BranchState

def ofPlace (place : Nat) : BranchState := ⟨place, [], place, []⟩

def push (part : Tree) (s : BranchState) : BranchState := { s with parts := part :: s.parts }

/-- The current alternative ends at `stop`. -/
def branch (stop : Nat) (s : BranchState) : Tree := .ofParts ⟨s.start, stop⟩ s.parts.reverse

/-- Goes on with the next alternative behind a bar at `stop`. -/
def split (stop : Nat) (s : BranchState) : BranchState :=
  { s with branches := s.branch stop :: s.branches, start := stop + 1, parts := [] }

/-- The alternatives end at `stop`. -/
def close (stop : Nat) (s : BranchState) : Tree :=
  if s.branches.isEmpty then s.branch stop
  else .alternation ⟨s.first, stop⟩ (s.branch stop :: s.branches).reverse

end BranchState

/-- Switches skipping as flags say. -/
def setLoose (changes : FlagChanges) : Scan Unit :=
  modify fun c => { c with isLoose := (changes.lookup .loose).getD c.isLoose }

/-- Alternatives up to a closing parenthesis or the end. -/
def alternatives : Nat → BranchState → Scan Tree
  | 0, s => return s.close (← here)
  | fuel + 1, s => do
    Scan.skip
    match ← current? with
    | none | some ')' => return s.close (← here)
    | some '|' =>
      let stop ← here
      advance
      alternatives fuel (s.split stop)
    | some '(' =>
      match ← groupHead with
      | .directive span changes =>
        setLoose changes
        alternatives fuel (s.push (.flags span changes))
      | .body span changes isCaptured =>
        let isLoose := (← get).isLoose
        setLoose changes
        let body ← alternatives fuel (.ofPlace (← here))
        if ← isAtEnd then throw ⟨.groupUnclosed, span⟩
        modify fun c => { c with isLoose }
        advance
        alternatives fuel (s.push (.group ⟨span.start, ← here⟩ changes isCaptured body))
    | some '[' =>
      let part ← bracket
      alternatives fuel (s.push part)
    | some '?' => alternatives fuel { s with parts := ← marked 0 (some 1) s.parts }
    | some '*' => alternatives fuel { s with parts := ← marked 0 none s.parts }
    | some '+' => alternatives fuel { s with parts := ← marked 1 none s.parts }
    | some '\x7b' => alternatives fuel { s with parts := ← counted s.parts }
    | some c =>
      let part ← atom c
      alternatives fuel (s.push (.atom part))

/-- How deep parts can be nested. -/
def nestingLimit : Nat := 250

/-- The expression that a text writes. -/
def Tree.read (pattern : List Char) : Except Fault Tree := do
  let (tree, c) ← (alternatives (pattern.length + 1) (.ofPlace 0)).run (.start pattern)
  if !c.rest.isEmpty then throw ⟨.groupUnopened, ⟨c.place, c.place + 1⟩⟩
  match tree.tooDeep? nestingLimit with
  | some span => throw ⟨.nestingTooDeep nestingLimit, span⟩
  | none => return tree

end LineBasic.Regex
