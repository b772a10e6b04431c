import LineBasic.Text.Blank

/-!
# Physical lines

A text is cut at every line feed (`cut`). The lines to be read (`lines`) leave out the empty piece
after a final line feed, and a carriage return before a line feed belongs to the terminator.
-/

namespace LineBasic.Text

/-- The pieces between copies of a mark; there is always at least one. -/
def pieces (mark : Char) : List Char → List (List Char)
  | [] => [[]]
  | c :: rest =>
    if c = mark then [] :: pieces mark rest
    else match pieces mark rest with
      | piece :: others => (c :: piece) :: others
      | [] => [[c]]

theorem pieces_ne_nil (mark : Char) (s : List Char) : pieces mark s ≠ [] := by
  cases s with
  | nil => simp [pieces]
  | cons c rest =>
    unfold pieces
    split
    · simp
    · split <;> simp

/-- The pieces between line feeds. -/
def cut (s : List Char) : List (List Char) := pieces '\n' s

/-- The piece without a carriage return at its end. -/
def dropReturn (s : List Char) : List Char :=
  if s.getLast? = some '\r' then s.dropLast else s

/-- The piece without any line terminators at its end. -/
def dropTerminators (s : List Char) : List Char :=
  (s.reverse.dropWhile fun c => c == '\n' || c == '\r').reverse

/-- The lines of a text without their terminators. -/
def lines (s : List Char) : List (List Char) :=
  let pieces := cut s
  pieces.dropLast.map dropReturn ++ (pieces.getLast?.filter fun piece => !piece.isEmpty).toList

/-- The byte offsets at which the pieces between line feeds begin. -/
def starts (s : List Char) : List Nat := go 0 (cut s)
where
  go (offset : Nat) : List (List Char) → List Nat
    | [] => []
    | piece :: rest => offset :: go (offset + byteSize piece + 1) rest

end LineBasic.Text
