/-!
# White space, lengths and digits

Lines are read as lists of characters. White space is the Unicode property of that name
(`isWhite`), while the blanks between the words of a statement are only the space and the tab
(`isBlank`). Columns and offsets count UTF-8 bytes (`byteSize`). A run of digits has a value in
base 10 (`ofDecimal`) and in base 16 (`ofHexadecimal`).
-/

namespace LineBasic.Text

/-- The space and the tab, which separate words on a line. -/
def isBlank (c : Char) : Bool := c == ' ' || c == '\t'

/-- Characters with the Unicode property `White_Space`. -/
def isWhite (c : Char) : Bool :=
  let n := c.toNat
  (0x09 ≤ n && n ≤ 0x0D) || n == 0x20 || n == 0x85 || n == 0xA0 || n == 0x1680 ||
    (0x2000 ≤ n && n ≤ 0x200A) || n == 0x2028 || n == 0x2029 || n == 0x202F || n == 0x205F ||
    n == 0x3000

theorem isWhite_of_isBlank {c : Char} (h : isBlank c = true) : isWhite c = true := by
  simp only [isBlank, Bool.or_eq_true, beq_iff_eq] at h
  rcases h with rfl | rfl <;> decide

/-- Drops the white space at the start. -/
def trimStart (s : List Char) : List Char := s.dropWhile isWhite

/-- Drops the white space at the end. -/
def trimEnd (s : List Char) : List Char := (s.reverse.dropWhile isWhite).reverse

/-- Drops the white space at both ends. -/
def trim (s : List Char) : List Char := trimEnd (trimStart s)

/-- Drops every copy of `c` at both ends. -/
def trimChar (c : Char) (s : List Char) : List Char :=
  ((s.dropWhile (· == c)).reverse.dropWhile (· == c)).reverse

/-- The length in UTF-8 bytes. -/
def byteSize : List Char → Nat
  | [] => 0
  | c :: s => c.utf8Size + byteSize s

@[simp] theorem byteSize_nil : byteSize [] = 0 := rfl

@[simp] theorem byteSize_cons (c : Char) (s : List Char) :
    byteSize (c :: s) = c.utf8Size + byteSize s := rfl

@[simp] theorem byteSize_append (s t : List Char) :
    byteSize (s ++ t) = byteSize s + byteSize t := by
  induction s with
  | nil => simp
  | cons c s ih => simp [ih, Nat.add_assoc]

/-- Splits off the first `n` bytes; `none` where that would cut a character. -/
def splitBytes? : Nat → List Char → Option (List Char × List Char)
  | 0, s => some ([], s)
  | _ + 1, [] => none
  | n + 1, c :: s =>
    if c.utf8Size ≤ n + 1 then
      (splitBytes? (n + 1 - c.utf8Size) s).map fun (front, rest) => (c :: front, rest)
    else none
termination_by _ s => s.length

/-- The text in upper case; letters outside ASCII stay as they are. -/
def upper (s : String) : String := s.map Char.toUpper

/-! ## Digits -/

/-- The value of a run of decimal digits; other characters count by their distance from `'0'`. -/
def ofDecimal (s : List Char) : Nat := s.foldl (fun n c => 10 * n + (c.toNat - '0'.toNat)) 0

def isHexDigit (c : Char) : Bool := c.isDigit || ('a' ≤ c && c ≤ 'f') || ('A' ≤ c && c ≤ 'F')

/-- The value of a hexadecimal digit. -/
def hexValue (c : Char) : Nat :=
  if c.isDigit then c.toNat - '0'.toNat else c.toLower.toNat - 'a'.toNat + 10

/-- The value of a run of hexadecimal digits. -/
def ofHexadecimal (s : List Char) : Nat := s.foldl (fun n c => 16 * n + hexValue c) 0

end LineBasic.Text
