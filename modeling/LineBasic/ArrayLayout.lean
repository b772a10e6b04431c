import LineBasic.Expr.Value

/-!
# Storage of arrays

An array with upper bounds `d₁, …, dₙ` under a base `b` is stored as one vector of
`∏ (dₖ - b + 1)` elements, the last subscript varying fastest. `offset?` gives the place of an
element with known subscripts and `index?` the expression that computes it.
-/

namespace LineBasic

/-- The storage plan of an array. -/
structure ArrayLayout where
  base : Nat
  /-- The inclusive upper bounds. -/
  extents : List Int
  /-- The distance in the vector between neighbours in each dimension. -/
  strides : List Nat
  /-- The number of elements. -/
  size : Nat
  deriving DecidableEq, Repr

namespace ArrayLayout

/-- Sizes of single dimensions are below `2 ^ 63`. -/
def countLimit : Int := 9223372036854775808

/-- Arrays have fewer than `2 ^ 64` elements. -/
def sizeLimit : Nat := 18446744073709551616

/-- The number of subscripts from `base` to `extent`, if there are any and not too many. -/
def count? (base : Nat) (extent : Int) : Option Nat :=
  let count := extent - base + 1
  if 0 < count ∧ -countLimit ≤ extent - base ∧ count < countLimit then some count.toNat else none

/-- A product below the limit. -/
def product? (a b : Nat) : Option Nat := if a * b < sizeLimit then some (a * b) else none

/-- The distance between neighbours in each dimension: 1 in the last one, and in any other one the
distance in the next one times the number of subscripts there. -/
def strides? : List Nat → Option (List Nat)
  | [] => some []
  | [_] => some [1]
  | _ :: count :: rest => do
    let strides ← strides? (count :: rest)
    return (← product? (strides.headD 1) count) :: strides

/-- The number of elements of an array with the given counts. -/
def size? (counts : List Nat) : Option Nat := counts.foldlM product? 1

/-- The layout for given bounds, if every dimension has elements and there are not too many. -/
def ofExtents? (extents : List Int) (base : Nat) : Option ArrayLayout := do
  let counts ← extents.mapM (count? base)
  let strides ← strides? counts
  let size ← size? counts
  return { base, extents, strides, size }

def rank (l : ArrayLayout) : Nat := l.extents.length

/-- The sum of the distances from the base, each times its stride; `none` outside the bounds. -/
def offsetFrom? (base : Nat) : List Int → List Int → List Nat → Option Nat
  | index :: indices, extent :: extents, stride :: strides =>
    if (base : Int) ≤ index ∧ index ≤ extent then
      (offsetFrom? base indices extents strides).map ((index - base).toNat * stride + ·)
    else none
  | _, _, _ => some 0

/-- The place of an element; `none` if a subscript is out of bounds. -/
def offset? (l : ArrayLayout) (indices : List Int) : Option Nat :=
  if indices.length = l.rank then offsetFrom? l.base indices l.extents l.strides else none

section

variable {ν : Type} [Arithmetic ν]

/-- What a subscript that is no literal adds to the index. -/
def term (base : Nat) (index : Expr ν) (stride : Nat) : Expr ν :=
  let distance := if base = 0 then index else .binary .sub index (.ofInt base)
  if stride = 1 then distance else .binary .mul distance (.ofInt stride)

/-- What the literal subscripts add to the index. -/
def literalPart (base : Nat) (subscripts : List (Expr ν × Nat)) : ν :=
  subscripts.foldl (fun sum (index, stride) => match index.number? with
    | some value => sum + (value - Arithmetic.ofInt base) * Arithmetic.ofInt stride
    | none => sum) Arithmetic.zero

/-- The expression for the place of an element, with the literal subscripts folded. -/
def index? (l : ArrayLayout) (indices : List (Expr ν)) : Option (Expr ν) :=
  if indices.length ≠ l.rank then none
  else
    let subscripts := indices.zip l.strides
    let constant := literalPart l.base subscripts
    let varying := subscripts.filter fun (index, _) => index.number?.isNone
    let terms := varying.map fun (index, stride) => term l.base index stride
    match terms with
    | [] => some (.ofNumber constant)
    | first :: rest =>
      let sum := rest.foldl (.binary .add) first
      some (if Arithmetic.isZero constant then sum else .binary .add sum (.ofNumber constant))

/-- A text that is the same for two accesses with the same index expression. -/
def accessKey? (l : ArrayLayout) (name : String) (indices : List (Expr ν)) : Option String :=
  (l.index? indices).map fun index => name ++ "[" ++ index.canonical ++ "]"

/-- A literal subscript rounded to an integer, within the bounds of 64 bits. -/
def literalSubscript (value : ν) : Int :=
  let largest := countLimit - 1
  match Arithmetic.nearest? value with
  | some n => max (-largest - 1) (min n largest)
  | none => if Arithmetic.less value Arithmetic.zero then -largest - 1 else largest

/-- The subscripts of an element access, if all of them are literals. -/
def literalSubscripts? : Expr ν → Option (List Int)
  | .element _ subscripts => subscripts.mapM fun e => e.number?.map literalSubscript
  | _ => none

end

end ArrayLayout
end LineBasic
