import LineBasic.Decimal.Basic

/-!
# Written forms of floating-point numbers

`Decimal.Style.write` writes the shortest decimal of a number. A style decides where positional
writing gives way to an exponent, whether a whole number keeps a point, and how the values that are
no numbers are spelled. `listing` is the style of program listings and messages, `interchange` the
one of structured reports.
-/

namespace LineBasic.Decimal

/-- The decisions that a written number depends on beside its digits. -/
structure Style where
  /-- Which of two shortest decimals is written. -/
  tie : Tie
  /-- Numbers below `10 ^ lowest` have an exponent; `none` never uses one. -/
  lowest : Option Int
  /-- Numbers from `10 ^ highest` on have an exponent; `none` never uses one. -/
  highest : Option Int
  /-- Whole numbers end in `.0`. -/
  wholePoint : Bool
  /-- The spelling of a value that is not a number. -/
  notANumber : String
  /-- The spelling of positive infinity. -/
  infinity : String
  /-- The spelling of negative infinity. -/
  negativeInfinity : String

namespace Style

/-- Always positional, with a point only where there is a fraction. -/
def listing : Style := ⟨.greater, none, none, false, "NaN", "inf", "-inf"⟩

/-- An exponent from `10 ^ 16` on and below `10 ^ -5`, and a point in every positional number. -/
def interchange : Style := ⟨.even, some (-5), some 16, true, "null", "null", "null"⟩

/-- `digits` with the point after the first `point` of them, padded with zeros. -/
def positional (style : Style) (digits : List Char) (point : Int) : String :=
  if point ≤ 0 then
    String.ofList ('0' :: '.' :: (List.replicate point.natAbs '0' ++ digits))
  else if digits.length ≤ point.natAbs then
    String.ofList (digits ++ List.replicate (point.natAbs - digits.length) '0') ++
      (if style.wholePoint then ".0" else "")
  else
    String.ofList (digits.take point.natAbs ++ '.' :: digits.drop point.natAbs)

/-- `digits` with the point after the first of them and a power of ten. -/
def scientific (digits : List Char) (point : Int) : String :=
  let fraction := match digits.drop 1 with
    | [] => ""
    | rest => String.ofList ('.' :: rest)
  String.ofList (digits.take 1) ++ fraction ++ "e" ++ toString (point - 1)

/-- A positive decimal in this style. -/
def writeDecimal (style : Style) (d : Decimal) : String :=
  let digits := (toString d.digits).toList
  let point := (digits.length : Int) + d.exponent
  if style.lowest.any (fun low => point ≤ low) || style.highest.any (fun high => high < point) then
    scientific digits point
  else style.positional digits point

/-- A floating-point number in this style. -/
def write (style : Style) (x : Float) : String :=
  let sign : Float.Model.UnpackedFloat.Sign → String
    | .positive => ""
    | .negative => "-"
  match x.toModel.unpack with
  | .notANumber => style.notANumber
  | .infinity .positive => style.infinity
  | .infinity .negative => style.negativeInfinity
  | .zero s => sign s ++ style.positional ['0'] 1
  | .finite s mantissa exponent _ =>
    sign s ++ style.writeDecimal (shortest style.tie x.abs mantissa exponent)

end Style
end LineBasic.Decimal
