import LineBasic.Text.Blank

/-!
# Names

A name is compared by its upper-case `key` and shown by its `text`, as it was typed. A last
character `%`, `!`, `#` or `$` fixes the type of what it names.
-/

namespace LineBasic

/-- The type of the values that a variable holds. -/
inductive StorageType where
  | integer | single | double | string
  deriving DecidableEq, Repr

namespace StorageType

def ofSuffix? : Char → Option StorageType
  | '%' => some integer
  | '!' => some single
  | '#' => some double
  | '$' => some string
  | _ => none

def suffix : StorageType → Char
  | integer => '%'
  | single => '!'
  | double => '#'
  | string => '$'

def isNumeric (t : StorageType) : Bool := t ≠ string

def label : StorageType → String
  | integer => "INTEGER"
  | single => "SINGLE"
  | double => "DOUBLE"
  | string => "STRING"

@[simp] theorem ofSuffix?_suffix (t : StorageType) : ofSuffix? t.suffix = some t := by
  cases t <;> rfl

end StorageType

/-- A variable, array or function name at one of its occurrences. -/
structure Name where
  /-- The spelling as typed. -/
  text : String
  deriving DecidableEq, Repr

namespace Name

/-- The spelling that two occurrences of one name share. -/
def key (n : Name) : String := Text.upper n.text

/-- The type that the last character of the name fixes, if it fixes one. -/
def suffix? (n : Name) : Option StorageType :=
  n.key.toList.getLast?.bind StorageType.ofSuffix?

/-- The first letter, by which `DEF` statements give types. -/
def initial (n : Name) : Char := n.key.toList.head?.getD 'A'

end Name
end LineBasic
