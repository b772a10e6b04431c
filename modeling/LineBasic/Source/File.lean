import LineBasic.Text.Lines

/-!
# Loaded texts

A program line is found by its number, a physical line by its place in the text. `SourceFile` links
the two: the last physical line that begins with a number holds the program line of that number, as
when a line is typed again. `SourceMap` numbers the loaded files.
-/

namespace LineBasic

/-- A line and a column, both from 1, with the byte offset they stand for. -/
structure SourcePosition where
  line : Nat
  column : Nat
  offset : Nat
  deriving DecidableEq, Repr

/-- A loaded text. -/
structure SourceFile where
  name : String
  content : String
  deriving DecidableEq, Repr

namespace SourceFile

/-- The byte offsets of the beginnings of the physical lines. -/
def lineStarts (f : SourceFile) : List Nat := Text.starts f.content.toList

/-- A physical line without its terminator. -/
def line? (f : SourceFile) (number : Nat) : Option String :=
  if number = 0 then none
  else (Text.cut f.content.toList)[number - 1]?.map fun piece =>
    String.ofList (Text.dropTerminators piece)

/-- The number that a line begins with, if it is below `2 ^ 32`. -/
def leadingNumber? (line : List Char) : Option Nat :=
  match (Text.trimStart line).takeWhile Char.isDigit with
  | [] => none
  | digits =>
    let n := Text.ofDecimal digits
    if n < 4294967296 then some n else none

/-- The program line numbers of the text with their physical lines, in the order of the text. -/
def numbered (f : SourceFile) : List (Nat × Nat) :=
  (Text.lines f.content.toList).zipIdx.filterMap fun (line, i) =>
    (leadingNumber? line).map fun number => (number, i + 1)

/-- The physical line of a program line: the last one with its number. -/
def physicalLine? (f : SourceFile) (number : Nat) : Option Nat :=
  (f.numbered.reverse.find? fun (n, _) => n == number).map Prod.snd

/-- The text of a program line. -/
def programLine? (f : SourceFile) (number : Nat) : Option String :=
  (f.physicalLine? number).bind f.line?

/-- The program line numbers in ascending order. -/
def programLineNumbers (f : SourceFile) : List Nat :=
  ((f.numbered.map Prod.fst).mergeSort (· ≤ ·)).eraseDups

/-- The line and the column, both from 1, of a byte offset. -/
def lineColumn (f : SourceFile) (offset : Nat) : Nat × Nat :=
  let before := f.lineStarts.takeWhile (· ≤ offset)
  (before.length, offset - before.getLast?.getD 0 + 1)

def position (f : SourceFile) (offset : Nat) : SourcePosition :=
  let (line, column) := f.lineColumn offset
  ⟨line, column, offset⟩

end SourceFile

/-- The loaded files; a file is known by its index. -/
structure SourceMap where
  files : List SourceFile
  deriving Repr

namespace SourceMap

def empty : SourceMap := ⟨[]⟩

/-- The map with one more file, whose index is the old size. -/
def add (m : SourceMap) (f : SourceFile) : SourceMap := ⟨m.files ++ [f]⟩

def size (m : SourceMap) : Nat := m.files.length

def file? (m : SourceMap) (index : Nat) : Option SourceFile := m.files[index]?

/-- The written form of a file's index. -/
def label (index : Nat) : String := "FileId(" ++ toString index ++ ")"

end SourceMap
end LineBasic
