import LineBasic.Regex.Anchor
import LineBasic.Regex.Fault

/-!
# Written regular expressions

A `Tree` is a regular expression as it is written: every part with the stretch that it takes, so
that what is wrong with its meaning can be pointed out. `Tree.tooDeep?` finds the part that goes
beyond a depth of nesting.
-/

namespace LineBasic.Regex

inductive Flag where
  | ignoreCase | multiLine | dotAll | swapGreed | unicode | crlf
  /-- Blanks and comments between the parts are left out. -/
  | loose
  deriving DecidableEq, Repr

/-- Flags that are switched on or off. -/
abbrev FlagChanges := List (Flag × Bool)

/-- A single character, written out or as an escape. -/
structure Literal where
  span : Span
  char : Char
  /-- Written with two hexadecimal digits, which can also stand for a byte. -/
  isByte : Bool

/-- The sets with a letter of their own. -/
inductive Shorthand where
  | digit | space | word

/-- The sets with a name in `[:` and `:]`. -/
inductive NamedClass where
  | alnum | alpha | ascii | blank | cntrl | digit | graph | lower | print | punct | space | upper
  | word | xdigit

/-- A property of characters: a name, or a name with a value. -/
inductive Property where
  | named (name : String)
  | valued

inductive Assertion where
  | lineStart | lineEnd | textStart | textEnd
  | word (edge : WordEdge)

/-- What can stand for characters both inside brackets and outside. -/
inductive Member where
  | literal (l : Literal)
  | shorthand (span : Span) (kind : Shorthand) (isNegated : Bool)
  | property (span : Span) (property : Property) (isNegated : Bool)

/-- The smallest parts. -/
inductive Atom where
  | member (m : Member)
  | dot (span : Span)
  | assertion (span : Span) (kind : Assertion)

inductive SetOperation where
  | intersection | difference | symmetricDifference

/-- What stands between brackets. -/
inductive ClassTree where
  | empty (span : Span)
  | member (m : Member)
  | range (span : Span) (first last : Literal)
  | named (span : Span) (kind : NamedClass) (isNegated : Bool)
  | bracket (span : Span) (isNegated : Bool) (inner : ClassTree)
  | union (span : Span) (items : List ClassTree)
  | operation (span : Span) (op : SetOperation) (left right : ClassTree)

inductive Tree where
  | empty (span : Span)
  | flags (span : Span) (changes : FlagChanges)
  | atom (a : Atom)
  | bracket (span : Span) (isNegated : Bool) (inner : ClassTree)
  /-- From `least` up to `most` copies of the body. -/
  | repetition (span : Span) (least : Nat) (most : Option Nat) (body : Tree)
  | group (span : Span) (changes : FlagChanges) (isCaptured : Bool) (body : Tree)
  | concat (span : Span) (parts : List Tree)
  | alternation (span : Span) (branches : List Tree)

/-! ## Stretches -/

def Member.span : Member → Span
  | literal l => l.span
  | shorthand span .. | property span .. => span

def Atom.span : Atom → Span
  | member m => m.span
  | dot span | assertion span _ => span

def ClassTree.span : ClassTree → Span
  | member m => m.span
  | empty span | range span .. | named span .. | bracket span .. | union span _
  | operation span .. => span

def Tree.span : Tree → Span
  | atom a => a.span
  | empty span | flags span _ | bracket span .. | repetition span .. | group span ..
  | concat span _ | alternation span _ => span

/-- Items next to each other. -/
def ClassTree.ofItems (span : Span) : List ClassTree → ClassTree
  | [] => .empty span
  | [item] => item
  | items => .union span items

/-- Parts one after the other. -/
def Tree.ofParts (span : Span) : List Tree → Tree
  | [] => .empty span
  | [part] => part
  | parts => .concat span parts

/-! ## Nesting -/

namespace ClassTree

mutual

/-- The first part that is nested in more than `depth` others. -/
def tooDeep? (depth : Nat) : ClassTree → Option Span
  | bracket span _ inner =>
    match depth with
    | 0 => some span
    | depth + 1 => inner.tooDeep? depth
  | union span items =>
    match depth with
    | 0 => some span
    | depth + 1 => tooDeepOfList? depth items
  | operation span _ left right =>
    match depth with
    | 0 => some span
    | depth + 1 => (left.tooDeep? depth).or (right.tooDeep? depth)
  | empty _ | member _ | range .. | named .. => none

def tooDeepOfList? (depth : Nat) : List ClassTree → Option Span
  | [] => none
  | item :: rest => (item.tooDeep? depth).or (tooDeepOfList? depth rest)

end

end ClassTree

namespace Tree

mutual

/-- The first part that is nested in more than `depth` others. -/
def tooDeep? (depth : Nat) : Tree → Option Span
  | bracket span _ inner =>
    match depth with
    | 0 => some span
    | depth + 1 => inner.tooDeep? depth
  | repetition span _ _ body | group span _ _ body =>
    match depth with
    | 0 => some span
    | depth + 1 => body.tooDeep? depth
  | concat span parts | alternation span parts =>
    match depth with
    | 0 => some span
    | depth + 1 => tooDeepOfList? depth parts
  | empty _ | flags .. | atom _ => none

def tooDeepOfList? (depth : Nat) : List Tree → Option Span
  | [] => none
  | part :: rest => (part.tooDeep? depth).or (tooDeepOfList? depth rest)

end

end Tree
end LineBasic.Regex
