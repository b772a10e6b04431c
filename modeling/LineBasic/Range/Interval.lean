import LineBasic.Expr.Value

/-!
# Ranges of values

A `ValueRange` is an interval of numbers whose ends may be missing, and may themselves be left out.
`constraints` lists the ranges that a condition puts on variables where it holds or fails.
-/

namespace LineBasic

/-- An end of a range. -/
structure Bound (ν : Type) where
  value : ν
  /-- The end itself does not belong to the range. -/
  isExclusive : Bool
  deriving DecidableEq, Repr

/-- The numbers between two ends, either of which may be missing. -/
structure ValueRange (ν : Type) where
  lower : Option (Bound ν)
  upper : Option (Bound ν)
  deriving DecidableEq, Repr

namespace ValueRange

variable {ν : Type}

/-- All numbers. -/
def all : ValueRange ν := ⟨none, none⟩

def exactly (value : ν) : ValueRange ν := ⟨some ⟨value, false⟩, some ⟨value, false⟩⟩

def above (value : ν) (isExclusive : Bool) : ValueRange ν := ⟨some ⟨value, isExclusive⟩, none⟩

def below (value : ν) (isExclusive : Bool) : ValueRange ν := ⟨none, some ⟨value, isExclusive⟩⟩

variable [Arithmetic ν]

/-- Exactly one number is in the range. -/
def isConstant (r : ValueRange ν) : Bool :=
  match r.lower, r.upper with
  | some a, some b => Arithmetic.same a.value b.value && !a.isExclusive && !b.isExclusive
  | _, _ => false

/-- No number is in the range. -/
def isEmpty (r : ValueRange ν) : Bool :=
  match r.lower, r.upper with
  | some a, some b =>
    Arithmetic.less b.value a.value ||
      (Arithmetic.same a.value b.value && (a.isExclusive || b.isExclusive))
  | _, _ => false

/-- The narrower of two ends; `isNarrower` says when the first one is. -/
def narrower (isNarrower : ν → ν → Bool) (a b : Bound ν) : Bound ν :=
  if Arithmetic.same a.value b.value then ⟨a.value, a.isExclusive || b.isExclusive⟩
  else if isNarrower a.value b.value then a
  else b

/-- The numbers that are in both ranges. -/
def intersect (r s : ValueRange ν) : ValueRange ν :=
  { lower := Option.merge (narrower fun a b => Arithmetic.less b a) r.lower s.lower
    upper := Option.merge (narrower Arithmetic.less) r.upper s.upper }

/-- The range in the usual notation of intervals. -/
def text (r : ValueRange ν) : String :=
  match r.lower with
  | some a => if r.isConstant then "= " ++ Arithmetic.text a.value else interval
  | none => interval
where
  interval : String :=
    let lower := r.lower.elim "(-inf" fun a =>
      (if a.isExclusive then "(" else "[") ++ Arithmetic.text a.value
    let upper := r.upper.elim "+inf)" fun b =>
      Arithmetic.text b.value ++ (if b.isExclusive then ")" else "]")
    "in " ++ lower ++ ", " ++ upper

/-- The numbers that stand in a relation to `value`; `ne` bounds nothing. -/
def ofRelation? (op : BinaryOp) (value : ν) : Option (ValueRange ν) :=
  match op with
  | .eq => some (exactly value)
  | .lt => some (below value true)
  | .le => some (below value false)
  | .gt => some (above value true)
  | .ge => some (above value false)
  | _ => none

end ValueRange

section

variable {ν : Type} [Arithmetic ν]

/-- A comparison of a variable with a constant, as if the variable stood on the left. -/
def comparison? (op : BinaryOp) (left right : Expr ν) : Option (String × BinaryOp × ν) :=
  match left, right with
  | .scalar name, _ => right.constantNumber?.map fun c => (name.key, op, c)
  | _, .scalar name => do
    let swapped ← op.swapped?
    let c ← left.constantNumber?
    return (name.key, swapped, c)
  | _, _ => none

/-- The ranges that variables are in where the value of the condition is, or is not, zero. -/
def constraints (holds : Bool) : Expr ν → List (String × ValueRange ν)
  | .unary .not operand => constraints (!holds) operand
  | .binary .and left right =>
    if holds then constraints true left ++ constraints true right else []
  | .binary .or left right =>
    if holds then [] else constraints false left ++ constraints false right
  | .binary op left right =>
    if op.isRelational then
      (do
        let (name, op, c) ← comparison? op left right
        let range ← ValueRange.ofRelation? (← if holds then some op else op.inverted?) c
        return (name, range) : Option (String × ValueRange ν)).toList
    else []
  | _ => []

end
end LineBasic
