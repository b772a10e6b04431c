import LineBasic.Regex.Atom

/-!
# Reading character classes

A class in brackets lists characters, ranges, named sets and further classes; `&&`, `--` and `~~`
combine what stands on both sides, from left to right. A hyphen stands for itself at the start and
before a closing bracket, and a closing bracket does right after the opening one.
-/

namespace LineBasic.Regex

open Scan

/-- A class that is being read. -/
structure ClassState where
  /-- What stands in front of the last operator. -/
  pending : Option (SetOperation × ClassTree)
  /-- The stretch of the items. -/
  span : Span
  /-- The items after the last operator, the last one first. -/
  items : List ClassTree

namespace ClassState

def start (place : Nat) : ClassState := ⟨none, ⟨place, place⟩, []⟩

def push (item : ClassTree) (s : ClassState) : ClassState :=
  let first := if s.items.isEmpty then item.span.start else s.span.start
  { s with span := ⟨first, item.span.stop⟩, items := item :: s.items }

/-- The class so far. -/
def close (s : ClassState) : ClassTree :=
  let items := ClassTree.ofItems s.span s.items.reverse
  match s.pending with
  | none => items
  | some (op, left) => .operation ⟨left.span.start, items.span.stop⟩ op left items

/-- Goes on behind an operator. -/
def operate (op : SetOperation) (place : Nat) (s : ClassState) : ClassState :=
  { start place with pending := some (op, s.close) }

end ClassState

/-- A bracket that has been opened. -/
structure OpenBracket where
  /-- The bracket with what belongs to its opening. -/
  span : Span
  isNegated : Bool
  state : ClassState

/-- Hyphens, each for itself. -/
def leadingHyphens (start : Nat) : Nat → ClassState → Scan ClassState
  | 0, s => return s
  | fuel + 1, s => do
    if (← current?) ≠ some '-' then return s
    let place ← here
    advanceSkipping
    if ← isAtEnd then fail .classUnclosed start start
    leadingHyphens start fuel (s.push (.member (.literal ⟨⟨place, place + 1⟩, '-', false⟩)))

/-- The opening of a bracket, with the characters that only stand for themselves there. -/
def openBracket : Scan OpenBracket := do
  let start ← here
  advanceOr .classUnclosed start
  let isNegated := (← current?) = some '^'
  if isNegated then advanceOr .classUnclosed start
  let c ← get
  let state ← leadingHyphens start c.rest.length (.start c.place)
  if state.items.isEmpty && (← current?) = some ']' then
    let place ← here
    advanceOr .classUnclosed start
    let state := state.push (.member (.literal ⟨⟨place, place + 1⟩, ']', false⟩))
    return ⟨⟨start, ← here⟩, isNegated, state⟩
  return ⟨⟨start, ← here⟩, isNegated, state⟩

def NamedClass.ofName? : String → Option NamedClass
  | "alnum" => some .alnum
  | "alpha" => some .alpha
  | "ascii" => some .ascii
  | "blank" => some .blank
  | "cntrl" => some .cntrl
  | "digit" => some .digit
  | "graph" => some .graph
  | "lower" => some .lower
  | "print" => some .print
  | "punct" => some .punct
  | "space" => some .space
  | "upper" => some .upper
  | "word" => some .word
  | "xdigit" => some .xdigit
  | _ => none

/-- A named set in `[:` and `:]`, with a caret for its complement. -/
def namedClass? (c : Cursor) : Option (ClassTree × Cursor) :=
  match c.rest with
  | '[' :: ':' :: inner =>
    let isNegated := inner.head? == some '^'
    let inner := if isNegated then inner.tail else inner
    let name := inner.takeWhile (· != ':')
    match inner.drop name.length with
    | ':' :: ']' :: rest =>
      (NamedClass.ofName? (String.ofList name)).map fun kind =>
        let after := c.moveTo rest
        (.named ⟨c.place, after.place⟩ kind isNegated, after)
    | _ => none
  | _ => none

/-- One end of a range, or a member of its own. -/
def classAtom : Scan Atom := do
  match ← current? with
  | none => failHere .escapeUnfinished
  | some '\\' => escape
  | some c => return .member (.literal (← verbatim c))

def asMember : Atom → Scan ClassTree
  | .member m => return .member m
  | a => throw ⟨.classEscape, a.span⟩

def asBoundary : Atom → Scan Literal
  | .member (.literal l) => return l
  | a => throw ⟨.classRangeBoundary, a.span⟩

/-- A member or a range, in a bracket that was opened at `opening`. -/
def memberOrRange (opening : Span) : Scan ClassTree := do
  let first ← classAtom
  Scan.skip
  let c ← get
  match c.rest.head? with
  | none => throw ⟨.classUnclosed, opening⟩
  | some '-' =>
    if c.secondSkipping? = some ']' || c.secondSkipping? = some '-' then asMember first
    else
      advanceSkipping
      if ← isAtEnd then throw ⟨.classUnclosed, opening⟩
      let last ← classAtom
      let span : Span := ⟨first.span.start, last.span.stop⟩
      let least ← asBoundary first
      let greatest ← asBoundary last
      if greatest.char < least.char then throw ⟨.classRangeOrder, span⟩
      return .range span least greatest
  | some _ => asMember first

def operatorOf? (c : Char) : Option SetOperation :=
  match c with
  | '&' => some .intersection
  | '-' => some .difference
  | '~' => some .symmetricDifference
  | _ => none

/-- The operator of two equal characters at the cursor. -/
def setOperator? (c : Cursor) : Option SetOperation := do
  let first ← c.rest.head?
  if c.second? = some first then operatorOf? first else none

/-- What stands in a bracket, up to the bracket that closes it. -/
def classBody (opening : Span) : Nat → ClassState → Scan ClassTree
  | 0, s => return s.close
  | fuel + 1, s => do
    Scan.skip
    let c ← get
    match c.rest.head? with
    | none => throw ⟨.classUnclosed, opening⟩
    | some ']' => return s.close
    | some '[' =>
      match namedClass? c with
      | some (item, after) =>
        set after
        classBody opening fuel (s.push item)
      | none =>
        let inner ← openBracket
        let body ← classBody inner.span fuel inner.state
        advance
        let span : Span := ⟨inner.span.start, ← here⟩
        classBody opening fuel (s.push (.bracket span inner.isNegated body))
    | some _ =>
      match setOperator? c with
      | some op =>
        advance
        advance
        classBody opening fuel (s.operate op (← here))
      | none =>
        let item ← memberOrRange opening
        classBody opening fuel (s.push item)

/-- A class in brackets. -/
def bracket : Scan Tree := do
  let opened ← openBracket
  let c ← get
  let body ← classBody opened.span (c.rest.length + 1) opened.state
  advance
  return .bracket ⟨opened.span.start, ← here⟩ opened.isNegated body

end LineBasic.Regex
