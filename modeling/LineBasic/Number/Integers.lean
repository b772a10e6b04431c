import LineBasic.Number.Real

/-!
# Integers among numbers

The numbers of an arithmetic that is exact on integers contain these with their operations. Both the
integers themselves and the real numbers are such.
-/

namespace LineBasic

/-- The operations of the arithmetic on integers are those of the integers. -/
class ExactIntegers (ν : Type) [Arithmetic ν] : Prop where
  neg_ofInt (a : Int) : -(Arithmetic.ofInt a : ν) = Arithmetic.ofInt (-a)
  add_ofInt (a b : Int) : (Arithmetic.ofInt a + Arithmetic.ofInt b : ν) = Arithmetic.ofInt (a + b)
  sub_ofInt (a b : Int) : (Arithmetic.ofInt a - Arithmetic.ofInt b : ν) = Arithmetic.ofInt (a - b)
  mul_ofInt (a b : Int) : (Arithmetic.ofInt a * Arithmetic.ofInt b : ν) = Arithmetic.ofInt (a * b)
  floor_ofInt (a : Int) : Arithmetic.floor (Arithmetic.ofInt a : ν) = Arithmetic.ofInt a
  whole_ofInt (a : Int) : Arithmetic.whole (Arithmetic.ofInt a : ν) = Arithmetic.ofInt a
  absolute_ofInt (a : Int) : Arithmetic.absolute (Arithmetic.ofInt a : ν) = Arithmetic.ofInt |a|
  nearest?_ofInt (a : Int) : Arithmetic.nearest? (Arithmetic.ofInt a : ν) = some a

instance : ExactIntegers Int where
  neg_ofInt _ := rfl
  add_ofInt _ _ := rfl
  sub_ofInt _ _ := rfl
  mul_ofInt _ _ := rfl
  floor_ofInt _ := rfl
  whole_ofInt _ := rfl
  absolute_ofInt _ := rfl
  nearest?_ofInt _ := rfl

instance : ExactIntegers ℝ where
  neg_ofInt a := (Int.cast_neg a).symm
  add_ofInt a b := (Int.cast_add a b).symm
  sub_ofInt a b := (Int.cast_sub a b).symm
  mul_ofInt a b := (Int.cast_mul a b).symm
  floor_ofInt a := congrArg Int.cast (Int.floor_intCast a)
  whole_ofInt a := by
    show (if (0 : ℝ) ≤ a then (⌊(a : ℝ)⌋ : ℝ) else ⌈(a : ℝ)⌉) = a
    rw [Int.floor_intCast, Int.ceil_intCast, ite_self]
  absolute_ofInt a := (Int.cast_abs ..).symm
  nearest?_ofInt := Arithmetic.nearest?_intCast

/-- Integers are finite, and they are the same number only if they are equal. -/
class FiniteIntegers (ν : Type) [Arithmetic ν] : Prop extends ExactIntegers ν where
  isFinite_ofInt (a : Int) : Arithmetic.isFinite (Arithmetic.ofInt a : ν) = true
  same_ofInt (a b : Int) :
    Arithmetic.same (Arithmetic.ofInt a : ν) (Arithmetic.ofInt b) = decide (a = b)

instance : FiniteIntegers Int where
  isFinite_ofInt _ := rfl
  same_ofInt _ _ := rfl

instance : FiniteIntegers ℝ where
  isFinite_ofInt _ := rfl
  same_ofInt _ _ := decide_eq_decide.2 Int.cast_inj

namespace Arithmetic

variable {ν : Type} [Arithmetic ν] [ExactIntegers ν]

/-- A word is the integer itself. -/
theorem word?_ofInt_eq_some_iff {n w : Int} :
    word? (ofInt n : ν) = some w ↔ IsWord16 n ∧ w = n := by
  rw [word?, ExactIntegers.nearest?_ofInt]
  exact word?_int_eq_some_iff

end Arithmetic
end LineBasic
