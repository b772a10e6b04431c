import LineBasic.Regex.Meaning

/-!
# Regular expressions from texts

`Regex.ofPattern` reads a text and takes its meaning. An expression is refused if an automaton for
it would be too large (`Regex.room`), or if it asks for the edges of words in the sense of Unicode,
for which there is no table.
-/

namespace LineBasic

namespace CharSet

/-- The set has ASCII characters only, as far as its form shows. -/
def isAscii : CharSet → Bool
  | empty => true
  | range _ last => last.toNat < 128
  | union a b => a.isAscii && b.isAscii
  | intersection a b => a.isAscii || b.isAscii
  | difference a _ | caseless a => a.isAscii
  | complement _ => false

/-- The number of ranges that the set is built from. -/
def rangeCount : CharSet → Nat
  | empty => 0
  | range .. => 1
  | union a b | intersection a b | difference a b => a.rangeCount + b.rangeCount
  | complement a => a.rangeCount
  | caseless a => 2 * a.rangeCount

end CharSet

namespace Regex

/-- The bytes that a state of an automaton takes. -/
def stateRoom : Nat := 32

/-- The bytes that a state with a choice of two takes. -/
def choiceRoom : Nat := stateRoom + 8

/-- About the bytes that the states for one character take. A single character has a state for each
byte of it, and other sets share the states behind the first byte. -/
def setRoom (s : CharSet) : Nat :=
  match s with
  | .range first last =>
    if first = last then first.utf8Size * stateRoom else severalRoom
  | _ => severalRoom
where
  severalRoom : Nat := if s.isAscii then 2 * stateRoom + 8 * s.rangeCount
    else 9 * stateRoom + 8 * (17 + 2 * s.rangeCount)

/-- About the bytes that an automaton for the expression takes. -/
def room : Regex → Nat
  | empty | anchor _ => stateRoom
  | one s => setRoom s
  | concat first second => first.room + second.room
  | either first second => first.room + second.room + choiceRoom
  | repeated least none body => max least 1 * body.room + choiceRoom
  | repeated least (some most) body =>
    most * body.room + (most - least) * choiceRoom + stateRoom
  | captured body => body.room + 2 * stateRoom

/-- The bytes that an automaton may take. -/
def roomLimit : Nat := 10485760

/-- The expression asks for edges of Unicode words. -/
def asksForUnicodeWords : Regex → Bool
  | empty | one _ => false
  | anchor (.word _ isUnicode) => isUnicode
  | anchor _ => false
  | concat a b | either a b => a.asksForUnicodeWords || b.asksForUnicodeWords
  | repeated _ _ body | captured body => body.asksForUnicodeWords

/-- Why a text gives no regular expression. -/
inductive Refusal where
  | fault (f : Fault)
  | tooLarge
  | wordsUnavailable

/-- The refusal in words, with a quotation of the text. -/
def Refusal.message (pattern : String) : Refusal → String
  | fault f => f.text pattern.toList
  | tooLarge => "Compiled regex exceeds size limit of " ++ toString roomLimit ++ " bytes."
  | wordsUnavailable => "error building NFA"

def ofPattern (pattern : String) : Except Refusal Regex := do
  let tree ← (Tree.read pattern.toList).mapError .fault
  let (r, _) ← (tree.meaning {}).mapError .fault
  if roomLimit < r.room then .error .tooLarge
  else if r.asksForUnicodeWords then .error .wordsUnavailable
  else return r

end Regex
end LineBasic
