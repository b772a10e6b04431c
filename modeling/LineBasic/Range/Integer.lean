import LineBasic.Expr.Basic

/-!
# Intervals of integers

`Expr.interval?` bounds the value of an expression whose scalars are bounded by intervals. Intervals
stay within `2 ^ 31` of zero; where no such interval is known there is none. An expression with an
interval has no other values than integers.
-/

namespace LineBasic

/-- The integers from `lo` to `hi`. -/
structure Interval where
  lo : Int
  hi : Int
  deriving DecidableEq, Repr

namespace Interval

instance : Membership Int Interval := ⟨fun i n => i.lo ≤ n ∧ n ≤ i.hi⟩

theorem mem_iff {i : Interval} {n : Int} : n ∈ i ↔ i.lo ≤ n ∧ n ≤ i.hi := Iff.rfl

/-- The only member is `n`. -/
def point (n : Int) : Interval := ⟨n, n⟩

/-- The values of a byte. -/
def byte : Interval := ⟨0, 255⟩

/-- The operands of `\`, `MOD` and the logical operators. -/
def word : Interval := ⟨-32768, 32767⟩

/-- The truth values with what is between them. -/
def truth : Interval := ⟨-1, 0⟩

/-- The least interval around two others. -/
def hull (a b : Interval) : Interval := ⟨min a.lo b.lo, max a.hi b.hi⟩

/-- How far from zero the ends of an interval may be: `2 ^ 31`. -/
def reach : Int := 2147483648

/-- The integers from `lo` to `hi`, unless they go too far from zero. -/
def withinReach? (lo hi : Int) : Option Interval :=
  if -reach ≤ lo ∧ hi ≤ reach then some ⟨lo, hi⟩ else none

/-- Every member of `a` is one of `b`. -/
def isWithin (a b : Interval) : Bool := b.lo ≤ a.lo && a.hi ≤ b.hi

/-- The only member, if there is only one. -/
def only? (a : Interval) : Option Int := if a.lo = a.hi then some a.lo else none

def negation? (a : Interval) : Option Interval := withinReach? (-a.hi) (-a.lo)

/-- The values of `NOT`. -/
def complement? (a : Interval) : Option Interval :=
  if a.isWithin truth then some truth
  else (withinReach? (-a.hi - 1) (-a.lo - 1)).filter fun r => r.isWithin word

def absolute (a : Interval) : Interval :=
  { lo := if a.lo ≤ 0 ∧ 0 ≤ a.hi then 0 else min a.lo.natAbs a.hi.natAbs
    hi := max a.lo.natAbs a.hi.natAbs }

def sum? (a b : Interval) : Option Interval := withinReach? (a.lo + b.lo) (a.hi + b.hi)

def difference? (a b : Interval) : Option Interval := withinReach? (a.lo - b.hi) (a.hi - b.lo)

/-- A product has its extremes at the ends of the factors. -/
def product? (a b : Interval) : Option Interval :=
  withinReach?
    (min (min (a.lo * b.lo) (a.lo * b.hi)) (min (a.hi * b.lo) (a.hi * b.hi)))
    (max (max (a.lo * b.lo) (a.lo * b.hi)) (max (a.hi * b.lo) (a.hi * b.hi)))

/-- A divisor that is positive and known. -/
def divisor? (b : Interval) : Option Int := b.only?.filter fun d => 0 < d

/-- The values of `\`, which rounds toward zero. -/
def quotient? (a b : Interval) : Option Interval :=
  b.divisor?.map fun d => ⟨a.lo.tdiv d, a.hi.tdiv d⟩

/-- The values of `MOD`, which has the sign of the dividend. -/
def remainder? (a b : Interval) : Option Interval :=
  b.divisor?.map fun d => ⟨if 0 ≤ a.lo then 0 else -(d - 1), if a.hi ≤ 0 then 0 else d - 1⟩

/-- The values of a logical operator. -/
def logical? (op : BinaryOp) (a b : Interval) : Option Interval :=
  if a.isWithin truth && b.isWithin truth then some truth
  else if op = .and ∧ 0 ≤ a.lo ∧ 0 ≤ b.lo then some ⟨0, min a.hi b.hi⟩
  else if a.isWithin word && b.isWithin word then some word
  else none

end Interval

/-- The values of an operator whose operands are in the given intervals, if they have any. -/
def UnaryOp.interval? : UnaryOp → Option Interval → Option Interval
  | neg, operand => operand.bind Interval.negation?
  | not, operand => operand.bind Interval.complement?

/-- The values of an operator; a comparison is a truth value whatever is compared. -/
def BinaryOp.interval? (op : BinaryOp) (left right : Option Interval) : Option Interval :=
  if op.isRelational then some .truth
  else do
    let a ← left
    let b ← right
    match op with
    | add => a.sum? b
    | sub => a.difference? b
    | mul => a.product? b
    | intDiv => a.quotient? b
    | mod => a.remainder? b
    | _ => if op.isLogical then a.logical? op b else none

/-- The values of an intrinsic function. -/
def Intrinsic.interval? : Intrinsic → List (Option Interval) → Option Interval
  | len, _ | asc, _ | peek, _ | inp, _ | instr, _ | pos, _ | lpos, _ => some .byte
  | sgn, _ => some ⟨-1, 1⟩
  | int, [arg] | fix, [arg] | cint, [arg] => arg
  | abs, [arg] => arg.map Interval.absolute
  | _, _ => none

/-- What is known of the values of a scalar. -/
inductive RangeState where
  /-- No assignment has been seen, so that the scalar is zero. -/
  | unassigned
  | bounded (values : Interval)
  | unknown
  deriving DecidableEq, Repr

namespace RangeState

/-- The values of a scalar in a state. -/
def interval? : RangeState → Option Interval
  | unassigned => some (.point 0)
  | bounded values => some values
  | unknown => none

/-- The state after an assignment of a value that is in an interval, if it is in any. -/
def join : RangeState → Option Interval → RangeState
  | unknown, _ | _, none => unknown
  | unassigned, some values => bounded values
  | bounded old, some values => bounded (old.hull values)

end RangeState

namespace Expr

variable {ν : Type} [Arithmetic ν]

/-- The interval of a number that is an integer not too far from zero. -/
def literalInterval? (value : ν) : Option Interval :=
  ((Arithmetic.integer? value).filter fun n => n.natAbs ≤ Interval.reach).map .point

mutual

/-- An interval around the values of an expression whose scalars are in given states. -/
def interval? (states : String → RangeState) : Expr ν → Option Interval
  | .number value _ => literalInterval? value
  | .scalar name => (states name.key).interval?
  | .unary op operand => op.interval? (operand.interval? states)
  | .binary op left right => op.interval? (left.interval? states) (right.interval? states)
  | .intrinsic f args => f.interval? (intervalsOfList states args)
  | .string _ | .element .. | .call .. => none

def intervalsOfList (states : String → RangeState) : List (Expr ν) → List (Option Interval)
  | [] => []
  | e :: rest => e.interval? states :: intervalsOfList states rest

end

end Expr
end LineBasic
