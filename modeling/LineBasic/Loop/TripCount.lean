import LineBasic.Number.Arithmetic

/-!
# Trip counts

How often the body of a counted loop runs: as often as the counter has not passed the bound. A
quotient within a small relative distance of a whole number counts as that number, so that steps
such as `0.1`, which are no binary fractions, reach their bound.
-/

namespace LineBasic.Loop

variable {ν : Type} [Arithmetic ν]

/-- The nearest whole number; a value that is not finite stays as it is. -/
def rounded (x : ν) : ν := (Arithmetic.nearest? x).elim x Arithmetic.ofInt

/-- One part in `10 ^ 9`. -/
def tolerance : ν := Arithmetic.one / Arithmetic.ofInt 1000000000

/-- The number of steps from the start to the last value that has not passed the bound. -/
def wholeSteps (quotient : ν) : ν :=
  let nearest := rounded quotient
  let size := Arithmetic.absolute nearest
  let scale := if Arithmetic.less size Arithmetic.one then Arithmetic.one else size
  if Arithmetic.atMost (Arithmetic.absolute (quotient - nearest)) (tolerance * scale) then nearest
  else Arithmetic.floor quotient

/-- The number of runs of the body, at most `2 ^ 64 - 1`; `none` for a step of zero. -/
def tripCount? (start stop step : ν) : Option Nat :=
  if Arithmetic.isZero step ||
      !(Arithmetic.isFinite start && Arithmetic.isFinite stop && Arithmetic.isFinite step) then
    none
  else
    let trips := wholeSteps ((stop - start) / step) + Arithmetic.one
    let largest := 18446744073709551615
    match Arithmetic.integer? trips with
    | some n => some (min n.toNat largest)
    | none => some (if Arithmetic.atMost trips Arithmetic.zero then 0 else largest)

end LineBasic.Loop
