/-!
# Decimals and binary floating-point numbers

A `Decimal` is a whole number of powers of ten. `Decimal.toFloat` rounds it to the nearest
floating-point number, and `Decimal.shortest` goes the other way: it picks the decimal with the
fewest digits that `toFloat` takes back to the given number, and of those the nearest. Two decimals
can be equally near; a `Tie` says which of them is meant.
-/

namespace LineBasic

/-- The number `digits * 10 ^ exponent`. -/
structure Decimal where
  digits : Nat
  exponent : Int
  deriving DecidableEq, Repr

namespace Decimal

/-- Which of two decimals that are equally near a number is taken. -/
inductive Tie where
  | greater
  /-- The one whose last digit is even. -/
  | even
  deriving DecidableEq, Repr

/-- The quotient is nearer than the number after it, or as near and preferred. -/
def Tie.prefersQuotient (tie : Tie) (num den : Nat) : Bool :=
  let twice := 2 * (num % den)
  twice < den || (twice == den && tie == .even && num / den % 2 == 0)

/-- An exponent for which the nearest floating-point number is the same: numbers from `10 ^ 400` on
are infinite, and those below `10 ^ -400` are zero. -/
def effectiveExponent (d : Decimal) : Int :=
  max (min d.exponent 400) (-((toString d.digits).length + 400))

/-- The nearest floating-point number, infinite above the largest finite one. -/
def toFloat (d : Decimal) : Float :=
  let exponent := d.effectiveExponent
  if exponent < 0 then Float.ofScientific d.digits true exponent.natAbs
  else Float.ofScientific d.digits false exponent.natAbs

/-- The decimal equal to `mantissa * 2 ^ exponent`. -/
def ofBinary (mantissa : Nat) (exponent : Int) : Decimal :=
  if exponent < 0 then ⟨mantissa * Nat.pow 5 exponent.natAbs, exponent⟩
  else ⟨mantissa * Nat.pow 2 exponent.natAbs, 0⟩

/-- The fraction `num / den * 10 ^ exponent`. -/
def scaled (num den : Nat) (exponent : Int) : Nat × Nat :=
  if exponent < 0 then (num, den * Nat.pow 10 exponent.natAbs)
  else (num * Nat.pow 10 exponent.natAbs, den)

/-- The number of decimal digits before the point of `num / den`, not positive below `1 / 10`. -/
def magnitude (num den : Nat) : Int :=
  let guess : Int := (toString num).length - (toString den).length
  let (scaledNum, scaledDen) := scaled num den (-guess)
  if scaledDen ≤ scaledNum then guess + 1 else guess

/--
Of the two multiples of `10 ^ exponent` around `num / den`, those that read back as `x`; the nearer
one if both do.
-/
def neighbour? (tie : Tie) (x : Float) (num den : Nat) (exponent : Int) : Option Decimal :=
  let (scaledNum, scaledDen) := scaled num den (-exponent)
  let below : Decimal := ⟨scaledNum / scaledDen, exponent⟩
  let above : Decimal := ⟨scaledNum / scaledDen + 1, exponent⟩
  let preferred :=
    if tie.prefersQuotient scaledNum scaledDen then [below, above] else [above, below]
  preferred.find? fun d => d.toFloat == x

/-- The same number without the zeros at the end of its digits. -/
def dropZeros (digits : Nat) (exponent : Int) : Decimal :=
  if h : digits ≠ 0 ∧ digits % 10 = 0 then dropZeros (digits / 10) (exponent + 1)
  else ⟨digits, exponent⟩
termination_by digits
decreasing_by omega

/-- The decimal with the fewest digits that reads back as the positive finite number `x`. -/
def shortest (tie : Tie) (x : Float) (mantissa : Nat) (exponent : Int) : Decimal :=
  let (num, den) :=
    if exponent < 0 then (mantissa, Nat.pow 2 exponent.natAbs)
    else (mantissa * Nat.pow 2 exponent.natAbs, 1)
  let size := magnitude num den
  let found := ((List.range 17).findSome? fun n =>
    neighbour? tie x num den (size - (n + 1 : Nat))).getD (ofBinary mantissa exponent)
  dropZeros found.digits found.exponent

end Decimal
end LineBasic
