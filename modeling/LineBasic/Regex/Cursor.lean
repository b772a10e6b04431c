import LineBasic.Regex.Fault

/-!
# Cursors on regular expressions

A `Cursor` is a place in an expression with what is left from there. In a loose expression the
reader skips white space, and comments from `#` to the end of the line, between the parts. A `Scan`
moves the cursor or ends with a fault.
-/

namespace LineBasic.Regex

structure Cursor where
  rest : List Char
  place : Nat
  isLoose : Bool
  /-- The names of the groups so far. -/
  names : List (String × Span)

/-- The part of a loose expression after white space and comments. -/
def afterBlanks (inComment : Bool) : List Char → List Char
  | [] => []
  | c :: rest =>
    if inComment then afterBlanks (c != '\n') rest
    else if Text.isWhite c then afterBlanks false rest
    else if c == '#' then afterBlanks true rest
    else c :: rest

namespace Cursor

def start (pattern : List Char) : Cursor := ⟨pattern, 0, false, []⟩

/-- Moves to a later place, given by what is left there. -/
def moveTo (rest : List Char) (c : Cursor) : Cursor :=
  { c with rest, place := c.place + (c.rest.length - rest.length) }

def next (c : Cursor) : Cursor := c.moveTo c.rest.tail

def skip (c : Cursor) : Cursor := if c.isLoose then c.moveTo (afterBlanks false c.rest) else c

/-- The character after the current one. -/
def second? (c : Cursor) : Option Char := c.rest.tail.head?

/-- The character after the current one, white space and at most one `#` of a loose expression left
out; if nothing else is left, what is left out counts. -/
def secondSkipping? (c : Cursor) : Option Char :=
  if !c.isLoose then c.second?
  else
    let rest := c.rest.tail
    let found := match rest.dropWhile Text.isWhite with
      | '#' :: more => more.dropWhile Text.isWhite
      | more => more
    if found.isEmpty then rest.head? else found.head?

/-- The characters with `p`, skipping between them. -/
def collect (p : Char → Bool) : Nat → Cursor → List Char × Cursor
  | 0, c => ([], c)
  | fuel + 1, c =>
    match c.rest with
    | [] => ([], c)
    | x :: _ =>
      if p x then
        let (found, c) := collect p fuel c.next.skip
        (x :: found, c)
      else ([], c)

end Cursor

abbrev Scan := StateT Cursor (Except Fault)

namespace Scan

def here : Scan Nat := return (← get).place

def current? : Scan (Option Char) := return (← get).rest.head?

def advance : Scan Unit := modify Cursor.next

def skip : Scan Unit := modify Cursor.skip

def advanceSkipping : Scan Unit := modify fun c => c.next.skip

def isAtEnd : Scan Bool := return (← get).rest.isEmpty

/-- The characters with `p`, skipping between them. -/
def takeWhile (p : Char → Bool) : Scan (List Char) := do
  let c ← get
  let (found, c) := c.collect p c.rest.length
  set c
  return found

def fail {α : Type} (cause : FaultCause) (start stop : Nat) : Scan α := throw ⟨cause, ⟨start, stop⟩⟩

/-- A fault from `start` up to the current place. -/
def failFrom {α : Type} (cause : FaultCause) (start : Nat) : Scan α := do
  fail cause start (← here)

def failHere {α : Type} (cause : FaultCause) : Scan α := do failFrom cause (← here)

/-- A fault of the current character. -/
def failOnCharacter {α : Type} (cause : FaultCause) : Scan α := do
  let place ← here
  fail cause place (place + 1)

/-- Moves on, and fails from `start` on if that is the end. -/
def advanceOr (cause : FaultCause) (start : Nat) : Scan Unit := do
  advanceSkipping
  if ← isAtEnd then failFrom cause start

/-- Moves past `text` if it stands here. -/
def eat (text : String) : Scan Bool := do
  let c ← get
  if text.toList.isPrefixOf c.rest then
    set (c.moveTo (c.rest.drop text.length))
    return true
  else return false

end Scan
end LineBasic.Regex
