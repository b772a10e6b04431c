import LineBasic.Decimal.Style

/-!
# The arithmetic of expressions

Expressions are evaluated, reduced and bounded over any type of numbers with an `Arithmetic`.
Programs are run with `Float`, whose instance is given here; the rules that read the arithmetic as
exact take another instance of the same class.
-/

namespace LineBasic

/-- The functions of one number that are not rational. -/
inductive Elementary where
  | squareRoot | logarithm | exponential | sine | cosine | tangent | arctangent
  deriving DecidableEq, Repr

/-- What the language needs to know of its numbers. -/
class Arithmetic (ν : Type) extends Add ν, Sub ν, Mul ν, Div ν, Neg ν where
  ofInt : Int → ν
  power : ν → ν → ν
  floor : ν → ν
  /-- The whole part, rounded toward zero. -/
  whole : ν → ν
  absolute : ν → ν
  elementary : Elementary → ν → ν
  /-- The nearest integer, a half going away from zero; `none` for a value that is not finite. -/
  nearest? : ν → Option Int
  /-- The same number as an integer, where it is one. -/
  integer? : ν → Option Int
  same : ν → ν → Bool
  less : ν → ν → Bool
  atMost : ν → ν → Bool
  isFinite : ν → Bool
  /-- The canonical written form. -/
  text : ν → String

namespace Number

/-- The nearest integer to `mantissa * 2 ^ exponent`, a half going up. -/
def nearestBinary (mantissa : Nat) (exponent : Int) : Nat :=
  if exponent < 0 then (2 * mantissa + Nat.pow 2 exponent.natAbs) / Nat.pow 2 (exponent.natAbs + 1)
  else mantissa * Nat.pow 2 exponent.natAbs

/-- The integer with a sign of the floating-point kind. -/
def signed (sign : Float.Model.UnpackedFloat.Sign) (n : Nat) : Int :=
  match sign with
  | .positive => n
  | .negative => -n

/-- The nearest integer to a floating-point number, a half going away from zero. -/
def nearest? (x : Float) : Option Int :=
  match x.toModel.unpack with
  | .finite s mantissa exponent _ => some (signed s (nearestBinary mantissa exponent))
  | .zero _ => some 0
  | _ => none

/-- The integer that a floating-point number is, if it is one. -/
def integer? (x : Float) : Option Int :=
  match x.toModel.unpack with
  | .finite s mantissa exponent _ =>
    if exponent < 0 then
      if mantissa % Nat.pow 2 exponent.natAbs = 0 then
        some (signed s (mantissa / Nat.pow 2 exponent.natAbs))
      else none
    else some (signed s (mantissa * Nat.pow 2 exponent.natAbs))
  | .zero _ => some 0
  | _ => none

/-- The greatest whole number that is not above `x`; a whole number keeps its sign of zero. -/
def floor (x : Float) : Float :=
  match x.toModel.unpack with
  | .finite s mantissa exponent _ =>
    if exponent < 0 then
      let whole := mantissa / Nat.pow 2 exponent.natAbs
      if mantissa % Nat.pow 2 exponent.natAbs = 0 then x
      else match s with
        | .positive => Float.ofInt whole
        | .negative => Float.ofInt (-(whole + 1 : Nat))
    else x
  | _ => x

/-- The whole part of `x`, rounded toward zero and with the sign of `x`. -/
def whole (x : Float) : Float := if x < 0 then -(floor (-x)) else floor x

/-- Whole numbers below `10 ^ 15` are written as integers, all others in the style of listings. -/
def text (x : Float) : String :=
  match integer? x with
  | some n => if n.natAbs < 1000000000000000 then toString n else Decimal.Style.listing.write x
  | none => Decimal.Style.listing.write x

/-- The elementary functions of the machine. -/
def elementary : Elementary → Float → Float
  | .squareRoot => Float.sqrt
  | .logarithm => Float.log
  | .exponential => Float.exp
  | .sine => Float.sin
  | .cosine => Float.cos
  | .tangent => Float.tan
  | .arctangent => Float.atan

end Number

/-- The arithmetic that programs run with: binary floating point of 64 bits. -/
instance : Arithmetic Float where
  ofInt := Float.ofInt
  power := Float.pow
  floor := Number.floor
  whole := Number.whole
  absolute := Float.abs
  elementary := Number.elementary
  nearest? := Number.nearest?
  integer? := Number.integer?
  same x y := x == y
  less x y := decide (x < y)
  atMost x y := decide (x ≤ y)
  isFinite x := !x.isNaN && !x.isInf
  text := Number.text

namespace Arithmetic

variable {ν : Type} [Arithmetic ν]

def zero : ν := ofInt 0

def one : ν := ofInt 1

/-- Truth values are `-1` and `0`. -/
def truth (b : Bool) : ν := ofInt (if b then -1 else 0)

def isZero (x : ν) : Bool := same x zero

/-- The value as a 16-bit integer, rounded, as logical operators and `\` take their operands. -/
def word? (x : ν) : Option Int :=
  (nearest? x).filter fun n => -32768 ≤ n && n ≤ 32767

end Arithmetic
end LineBasic
