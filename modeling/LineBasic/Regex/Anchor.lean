/-!
# Conditions on places

An `Anchor` is a condition on a place in a text. It depends on the characters before and after the
place only (`Anchor.holds`).
-/

namespace LineBasic

/-- Where a place is in relation to a word. -/
inductive WordEdge where
  | boundary | elsewhere | start | stop
  /-- No word goes on before the place. -/
  | startHalf
  /-- No word goes on after the place. -/
  | stopHalf
  deriving DecidableEq, Repr

/-- A condition on a place. -/
inductive Anchor where
  | textStart | textEnd | lineStart | lineEnd
  /-- A carriage return, a line feed, and both in this order end a line. -/
  | wideLineStart | wideLineEnd
  /-- Words are made of ASCII letters, digits and underscores, or of what Unicode takes for them. -/
  | word (edge : WordEdge) (isUnicode : Bool)
  deriving DecidableEq, Repr

def isWordCharacter (c : Char) : Bool := c.isAlphanum || c == '_'

namespace WordEdge

/-- The condition, given whether a word character stands before the place and after it. -/
def holds : WordEdge → (before after : Bool) → Bool
  | boundary, before, after => before != after
  | elsewhere, before, after => before == after
  | start, before, after => !before && after
  | stop, before, after => before && !after
  | startHalf, before, _ => !before
  | stopHalf, _, after => !after

end WordEdge

namespace Anchor

/-- The condition, given the characters before and after the place. Unicode words are taken for
ASCII words. -/
def holds (before after : Option Char) : Anchor → Bool
  | textStart => before.isNone
  | textEnd => after.isNone
  | lineStart => before.all (· == '\n')
  | lineEnd => after.all (· == '\n')
  | wideLineStart => before.all fun c => c == '\n' || (c == '\r' && after != some '\n')
  | wideLineEnd => after.all fun c => c == '\r' || (c == '\n' && before != some '\r')
  | word edge _ => edge.holds (before.any isWordCharacter) (after.any isWordCharacter)

end Anchor

end LineBasic
