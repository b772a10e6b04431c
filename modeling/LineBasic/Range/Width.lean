/-!
# Widths of integers

The classes of machine integers that a range of integers fits into.
-/

namespace LineBasic

inductive IntegerWidth where
  | uint8 | int8 | uint16 | int16 | int32
  deriving DecidableEq, Repr

namespace IntegerWidth

/-- The classes from the narrowest on. -/
def all : List IntegerWidth := [uint8, int8, uint16, int16, int32]

def least : IntegerWidth → Int
  | uint8 | uint16 => 0
  | int8 => -128
  | int16 => -32768
  | int32 => -2147483648

def greatest : IntegerWidth → Int
  | uint8 => 255
  | int8 => 127
  | uint16 => 65535
  | int16 => 32767
  | int32 => 2147483647

/-- The narrowest class that holds all integers from `min` to `max`. -/
def ofRange? (min max : Int) : Option IntegerWidth :=
  all.find? fun w => w.least ≤ min && max ≤ w.greatest

def bits : IntegerWidth → Nat
  | uint8 | int8 => 8
  | uint16 | int16 => 16
  | int32 => 32

def isSigned : IntegerWidth → Bool
  | uint8 | uint16 => false
  | int8 | int16 | int32 => true

def name : IntegerWidth → String
  | uint8 => "UInt8"
  | int8 => "Int8"
  | uint16 => "UInt16"
  | int16 => "Int16"
  | int32 => "Int32"

def text (w : IntegerWidth) : String :=
  toString w.bits ++ "-bit " ++ (if w.isSigned then "signed" else "unsigned")

end IntegerWidth
end LineBasic
