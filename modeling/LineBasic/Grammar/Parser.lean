import LineBasic.Text.Blank

/-!
# Parsers of one line

A parser reads a list of characters and accepts a front part of it, refuses it, so that another
alternative may be tried, or aborts, which no alternative repairs. Both failures name the place that
was reached by what is left of the line. `Parser.repeated` is the only loop; its bound is the length
of the input, and a step that goes on has to consume.
-/

namespace LineBasic

/-- What a parser makes of its input. -/
inductive Outcome (α : Type) where
  | accepted (value : α) (rest : List Char)
  | refused (place : List Char)
  | aborted (place : List Char)
  deriving Repr

/-- A parser of values of type `α`. -/
def Parser (α : Type) : Type := List Char → Outcome α

namespace Parser

variable {α β : Type}

def pure (a : α) : Parser α := fun s => .accepted a s

def bind (p : Parser α) (f : α → Parser β) : Parser β := fun s =>
  match p s with
  | .accepted a rest => f a rest
  | .refused place => .refused place
  | .aborted place => .aborted place

instance : Monad Parser where
  pure := Parser.pure
  bind := Parser.bind

/-- Refuses any input where it stands. -/
def refuse : Parser α := fun s => .refused s

/-- The input that is left. -/
def remaining : Parser (List Char) := fun s => .accepted s s

/-- The second parser where the first one refuses. -/
def orElse (p q : Parser α) : Parser α := fun s =>
  match p s with
  | .refused _ => q s
  | outcome => outcome

instance : OrElse (Parser α) where
  orElse p q := p.orElse (q ())

/-- `none`, with nothing consumed, where the parser refuses. -/
def optional (p : Parser α) : Parser (Option α) := fun s =>
  match p s with
  | .accepted a rest => .accepted (some a) rest
  | .refused _ => .accepted none s
  | .aborted place => .aborted place

/-- `none`, with nothing consumed, where the parser does not accept. -/
def attempt (p : Parser α) : Parser (Option α) := fun s =>
  match p s with
  | .accepted a rest => .accepted (some a) rest
  | _ => .accepted none s

/-- The parser, its failures moved to where it started. -/
def wholly (p : Parser α) : Parser α := fun s =>
  match p s with
  | .refused _ => .refused s
  | outcome => outcome

/-- The parser would accept the input. -/
def accepts (p : Parser α) (s : List Char) : Bool :=
  match p s with
  | .accepted .. => true
  | _ => false

/-- The first alternative that does not refuse; the last one decides how all of them fail. -/
def firstOf : List (Parser α) → Parser α
  | [] => refuse
  | [p] => p
  | p :: rest => p.orElse (firstOf rest)

/-- A character of a class. -/
def satisfy (p : Char → Bool) : Parser Char
  | [] => .refused []
  | c :: rest => if p c then .accepted c rest else .refused (c :: rest)

/-- The longest front part in a class, which may be empty. -/
def takeWhile (p : Char → Bool) : Parser (List Char) := fun s =>
  .accepted (s.takeWhile p) (s.dropWhile p)

/-- The longest front part in a class, refused where it is empty. -/
def takeWhile1 (p : Char → Bool) : Parser (List Char) := fun s =>
  match s.takeWhile p with
  | [] => .refused s
  | front => .accepted front (s.dropWhile p)

/-- A failure of the parser is final. -/
def committed (p : Parser α) : Parser α := fun s =>
  match p s with
  | .refused place => .aborted place
  | outcome => outcome

/-- At most `n` rounds of a step, which gives items and says whether to go on. -/
def gather (step : Parser (List α × Bool)) : Nat → Parser (List α)
  | 0 => refuse
  | n + 1 => do
    let (items, more) ← step
    if more then return items ++ (← gather step n) else return items

/-- The items of a step that is repeated for as long as it asks for it. -/
def repeated (step : Parser (List α × Bool)) : Parser (List α) := fun s =>
  gather step (s.length + 1) s

/-- One or more elements with separators between them. -/
def separated1 (separator : Parser β) (element : Parser α) : Parser (List α) := do
  let first ← element
  let others ← repeated do
    match ← optional (separator >>= fun _ => element) with
    | some a => return ([a], true)
    | none => return ([], false)
  return first :: others

/-- Any number of elements with separators between them. -/
def separated (separator : Parser β) (element : Parser α) : Parser (List α) := do
  match ← optional (separated1 separator element) with
  | some items => return items
  | none => return []

end Parser
end LineBasic
