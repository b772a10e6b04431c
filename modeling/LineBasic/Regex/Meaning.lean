import LineBasic.Regex.Matching
import LineBasic.Regex.Reader

/-!
# The meaning of regular expressions

`Tree.meaning` turns what is written into a `Regex`. There are no tables of Unicode properties: sets
and words that need them, and letters without regard to case, are refused unless the Unicode flag is
switched off, which leaves their ASCII parts. Without that flag a set must not hold bytes that are
no characters, so a complement is refused.
-/

namespace LineBasic.Regex

/-- The flags in force. -/
structure Mode where
  ignoresCase : Bool := false
  isMultiLine : Bool := false
  dotMatchesAll : Bool := false
  isUnicode : Bool := true
  isWide : Bool := false

namespace Mode

def change (changes : FlagChanges) (m : Mode) : Mode :=
  { ignoresCase := (changes.lookup .ignoreCase).getD m.ignoresCase
    isMultiLine := (changes.lookup .multiLine).getD m.isMultiLine
    dotMatchesAll := (changes.lookup .dotAll).getD m.dotMatchesAll
    isUnicode := (changes.lookup .unicode).getD m.isUnicode
    isWide := (changes.lookup .crlf).getD m.isWide }

end Mode

/-! ## Sets -/

def Shorthand.asciiSet : Shorthand → CharSet
  | digit => .range '0' '9'
  | space => .ofRanges [('\t', '\r'), (' ', ' ')]
  | word => .ofRanges [('0', '9'), ('A', 'Z'), ('_', '_'), ('a', 'z')]

def NamedClass.asciiSet : NamedClass → CharSet
  | alnum => .ofRanges [('0', '9'), ('A', 'Z'), ('a', 'z')]
  | alpha => .ofRanges [('A', 'Z'), ('a', 'z')]
  | ascii => .range '\x00' '\x7f'
  | blank => .ofRanges [('\t', '\t'), (' ', ' ')]
  | cntrl => .ofRanges [('\x00', '\x1f'), ('\x7f', '\x7f')]
  | digit => .range '0' '9'
  | graph => .range '!' '~'
  | lower => .range 'a' 'z'
  | print => .range ' ' '~'
  | punct => .ofRanges [('!', '/'), (':', '@'), ('[', '\x60'), ('\x7b', '~')]
  | space => .ofRanges [('\t', '\r'), (' ', ' ')]
  | upper => .range 'A' 'Z'
  | word => .ofRanges [('0', '9'), ('A', 'Z'), ('_', '_'), ('a', 'z')]
  | xdigit => .ofRanges [('0', '9'), ('A', 'F'), ('a', 'f')]

/-- The name of a property without what does not count: case, blanks, hyphens and underscores, `is`
at the start, and characters that are not ASCII. -/
def plainName (name : String) : String :=
  let isMarked := "is".toList.isPrefixOf (name.toList.map Char.toLower)
  let rest := if isMarked then name.toList.drop 2 else name.toList
  String.ofList ((rest.filter fun c =>
    c.toNat < 128 && c != ' ' && c != '-' && c != '_').map Char.toLower)

/-- Why a property is refused. Short names of general categories that would also be names of other
properties are taken for categories, which have no values here. -/
def Property.fault : Property → FaultCause
  | named name =>
    if ["cf", "sc", "lc"].contains (plainName name) then .propertyValueUnknown
    else .propertyUnknown
  | valued => .propertyUnknown

namespace Mode

/-- A set without regard to case if the mode says so, for the part at `span`. -/
def fold (m : Mode) (span : Span) (s : CharSet) : Except Fault CharSet :=
  if !m.ignoresCase then .ok s
  else if !m.isUnicode then .ok (.caseless s)
  else if s.isInhabited then .error ⟨.caseUnavailable, span⟩
  else .ok s

/-- A set or its complement. -/
def negate (m : Mode) (span : Span) (isNegated : Bool) (s : CharSet) : Except Fault CharSet :=
  if !isNegated then .ok s
  else if m.isUnicode then .ok (.complement s)
  else .error ⟨.partialCharacter, span⟩

/-- A character that is written out. Two hexadecimal digits name a byte without the Unicode flag. -/
def literal (m : Mode) (l : Literal) : Except Fault CharSet :=
  if !m.isUnicode && l.isByte && 127 < l.char.toNat then .error ⟨.partialCharacter, l.span⟩
  else .ok (.single l.char)

/-- A character that is written out in a class. -/
def classLiteral (m : Mode) (l : Literal) : Except Fault CharSet := do
  let s ← m.literal l
  if !m.isUnicode && 127 < l.char.toNat then .error ⟨.unicodeForbidden, l.span⟩
  else .ok s

def shorthand (m : Mode) (span : Span) (kind : Shorthand) (isNegated : Bool) :
    Except Fault CharSet :=
  if m.isUnicode then .error ⟨.shorthandUnavailable, span⟩
  else m.negate span isNegated kind.asciiSet

def property (m : Mode) (span : Span) (p : Property) : Except Fault CharSet :=
  .error ⟨if m.isUnicode then p.fault else .unicodeForbidden, span⟩

end Mode

namespace ClassTree

mutual

def meaning (m : Mode) : ClassTree → Except Fault CharSet
  | empty _ => .ok .empty
  | member (.literal l) => m.classLiteral l
  | member (.shorthand span kind isNegated) => m.shorthand span kind isNegated
  | member (.property span p _) => m.property span p
  | range _ first last => do
    let _ ← m.classLiteral first
    let _ ← m.classLiteral last
    return .range first.char last.char
  | named span kind isNegated => do m.negate span isNegated (← m.fold span kind.asciiSet)
  | bracket span isNegated inner => do
    m.negate span isNegated (← m.fold span (← inner.meaning m))
  | union _ items => meaningOfList m items
  | operation _ op left right => do
    let a ← left.meaning m
    let b ← right.meaning m
    let b ← m.fold right.span b
    let a ← m.fold left.span a
    return match op with
      | .intersection => .intersection a b
      | .difference => .difference a b
      | .symmetricDifference => .symmetricDifference a b

def meaningOfList (m : Mode) : List ClassTree → Except Fault CharSet
  | [] => .ok .empty
  | item :: rest => do return .union (← item.meaning m) (← meaningOfList m rest)

end

end ClassTree

/-! ## Expressions -/

/-- A dot is any character, or any one in a line. -/
def Mode.dot (m : Mode) (span : Span) : Except Fault CharSet :=
  if !m.isUnicode then .error ⟨.partialCharacter, span⟩
  else if m.dotMatchesAll then .ok .all
  else if m.isWide then .ok (.complement (.ofRanges [('\n', '\n'), ('\r', '\r')]))
  else .ok (.complement (.single '\n'))

def Mode.anchor (m : Mode) : Assertion → Anchor
  | .lineStart =>
    if !m.isMultiLine then .textStart else if m.isWide then .wideLineStart else .lineStart
  | .lineEnd => if !m.isMultiLine then .textEnd else if m.isWide then .wideLineEnd else .lineEnd
  | .textStart => .textStart
  | .textEnd => .textEnd
  | .word edge => .word edge m.isUnicode

def Mode.atom (m : Mode) : Atom → Except Fault Regex
  | .member (.literal l) => do return .one (← m.fold l.span (← m.literal l))
  | .member (.shorthand span kind isNegated) => .one <$> m.shorthand span kind isNegated
  | .member (.property span p _) => .one <$> m.property span p
  | .dot span => .one <$> m.dot span
  | .assertion _ kind => .ok (.anchor (m.anchor kind))

namespace Tree

mutual

/-- What the expression matches, and the flags that are in force behind it. -/
def meaning (m : Mode) : Tree → Except Fault (Regex × Mode)
  | empty _ => .ok (.empty, m)
  | flags _ changes => .ok (.empty, m.change changes)
  | atom a => do return (← m.atom a, m)
  | bracket span isNegated inner => do
    let s ← m.negate span isNegated (← m.fold span (← inner.meaning m))
    return (.one s, m)
  | repetition _ least most body => do
    let (r, m) ← body.meaning m
    return (if most = some 0 then .empty else .repeated least most r, m)
  | group _ changes isCaptured body => do
    let (r, _) ← body.meaning (m.change changes)
    return (if isCaptured then .captured r else r, m)
  | concat _ parts => concatMeaning m parts
  | alternation _ branches => branchMeaning m branches

def concatMeaning (m : Mode) : List Tree → Except Fault (Regex × Mode)
  | [] => .ok (.empty, m)
  | [part] => part.meaning m
  | part :: rest => do
    let (r, m) ← part.meaning m
    let (s, m) ← concatMeaning m rest
    return (.concat r s, m)

def branchMeaning (m : Mode) : List Tree → Except Fault (Regex × Mode)
  | [] => .ok (.one .empty, m)
  | [branch] => branch.meaning m
  | branch :: rest => do
    let (r, m) ← branch.meaning m
    let (s, m) ← branchMeaning m rest
    return (.either r s, m)

end

end Tree
end LineBasic.Regex
