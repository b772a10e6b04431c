import LineBasic.Decimal.Style

/-!
# Structured values

The values that structured reports consist of, and their written form: two blanks of indentation for
each level, members in the order in which they are given, and characters outside ASCII as they are.
-/

namespace LineBasic

inductive Json where
  | null
  | bool (b : Bool)
  | integer (n : Int)
  | float (x : Float)
  | string (s : String)
  | array (items : List Json)
  | object (members : List (String × Json))

namespace Json

def natural (n : Nat) : Json := .integer n

/-- The encoding of a value that may be missing. -/
def optional {α : Type} (encode : α → Json) : Option α → Json
  | some a => encode a
  | none => .null

def list {α : Type} (encode : α → Json) (items : List α) : Json := .array (items.map encode)

def strings (items : List String) : Json := list .string items

/-- The digits of a control character in base 16. -/
def hexDigits (n : Nat) : List Char := [Nat.digitChar (n / 16), Nat.digitChar (n % 16)]

/-- A character inside quotes. -/
def escape (c : Char) : List Char :=
  if c = '"' then ['\\', '"']
  else if c = '\\' then ['\\', '\\']
  else if c = '\n' then ['\\', 'n']
  else if c = '\r' then ['\\', 'r']
  else if c = '\t' then ['\\', 't']
  else if c.toNat = 8 then ['\\', 'b']
  else if c.toNat = 12 then ['\\', 'f']
  else if c.toNat < 32 then '\\' :: 'u' :: '0' :: '0' :: hexDigits c.toNat
  else [c]

def quote (s : String) : String := "\"" ++ String.ofList (s.toList.flatMap escape) ++ "\""

/-- The indentation of a level, on a new line. -/
def newline (level : Nat) : String := "\n" ++ String.ofList (List.replicate (2 * level) ' ')

/-- Written items between an opening and a closing mark; no items take one line. -/
def block (level : Nat) (opening closing : String) : List String → String
  | [] => opening ++ closing
  | items =>
    opening ++ newline (level + 1) ++ ("," ++ newline (level + 1)).intercalate items ++
      newline level ++ closing

mutual

/-- The written form at a level of indentation. -/
def write (level : Nat) : Json → String
  | null => "null"
  | bool b => if b then "true" else "false"
  | integer n => toString n
  | float x => Decimal.Style.interchange.write x
  | string s => quote s
  | array items => block level "[" "]" (writeItems (level + 1) items)
  | object members => block level "\x7b" "\x7d" (writeMembers (level + 1) members)

def writeItems (level : Nat) : List Json → List String
  | [] => []
  | item :: rest => item.write level :: writeItems level rest

def writeMembers (level : Nat) : List (String × Json) → List String
  | [] => []
  | (key, value) :: rest => (quote key ++ ": " ++ value.write level) :: writeMembers level rest

end

/-- The written form of a report. -/
def pretty (j : Json) : String := j.write 0

end Json
end LineBasic
