import Mathlib.Analysis.SpecialFunctions.Log.Basic
import Mathlib.Analysis.SpecialFunctions.Trigonometric.Arctan
import LineBasic.Number.Arithmetic

/-!
# Exact arithmetic

Integers without bounds, as numbers of expressions. Sums, differences and products are exact, and a
result that is no integer is rounded to the nearest one.
-/

namespace LineBasic

/-- The elementary functions of real numbers. -/
noncomputable def Elementary.real : Elementary → ℝ → ℝ
  | squareRoot => Real.sqrt
  | logarithm => Real.log
  | exponential => Real.exp
  | sine => Real.sin
  | cosine => Real.cos
  | tangent => Real.tan
  | arctangent => Real.arctan

noncomputable instance : Arithmetic Int where
  div a b := round ((a : ℝ) / b)
  ofInt n := n
  power a b := round ((a : ℝ) ^ b)
  floor a := a
  whole a := a
  absolute a := |a|
  elementary f a := round (f.real a)
  nearest? a := some a
  integer? a := some a
  same a b := a == b
  less a b := decide (a < b)
  atMost a b := decide (a ≤ b)
  isFinite _ := true
  text a := toString a

namespace Arithmetic

/-- The integers that logical operators, quotients and remainders work on. -/
def IsWord16 (n : Int) : Prop := -32768 ≤ n ∧ n ≤ 32767

@[simp] theorem ofInt_int (n : Int) : (ofInt n : Int) = n := rfl

@[simp] theorem text_int (n : Int) : text n = toString n := rfl

@[simp] theorem same_int (a b : Int) : same a b = (a == b) := rfl

theorem truth_int (b : Bool) : (truth b : Int) = if b then -1 else 0 := rfl

theorem word?_int_eq_some_iff {n w : Int} : word? n = some w ↔ IsWord16 n ∧ w = n := by
  have hnearest : word? n = (some n).filter fun n => -32768 ≤ n && n ≤ 32767 := rfl
  rw [hnearest, Option.filter_eq_some_iff, IsWord16]
  simp only [Option.some.injEq, Bool.and_eq_true, decide_eq_true_eq]
  constructor
  · rintro ⟨rfl, h⟩
    exact ⟨h, rfl⟩
  · rintro ⟨h, rfl⟩
    exact ⟨rfl, h⟩

end Arithmetic
end LineBasic
