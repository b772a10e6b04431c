import Mathlib.Analysis.SpecialFunctions.Pow.Real
import LineBasic.Number.Exact

/-!
# Real arithmetic

Real numbers as numbers of expressions, and the real number that a floating-point number stands for.
Sums, differences, products and quotients are exact.
-/

namespace LineBasic

/-- The numbers that literals, which are floating-point numbers in the text, stand for. -/
class LiteralValues (ν : Type) where
  /-- The number of a literal; none for one that is not finite. -/
  literal? : Float → Option ν

instance : LiteralValues Float where
  literal? := some

/-- The real number that a finite floating-point number stands for. -/
noncomputable instance : LiteralValues ℝ where
  literal? x := match x.toModel.unpack with
    | .finite s mantissa exponent _ => some (Number.signed s mantissa * 2 ^ exponent)
    | .zero _ => some 0
    | _ => none

open scoped Classical in
noncomputable instance : Arithmetic ℝ where
  ofInt n := n
  power a b := a ^ b
  floor a := ⌊a⌋
  whole a := if 0 ≤ a then ⌊a⌋ else ⌈a⌉
  absolute a := |a|
  elementary := Elementary.real
  nearest? a := some (if 0 ≤ a then ⌊a + 1 / 2⌋ else ⌈a - 1 / 2⌉)
  integer? a := if a = ⌊a⌋ then some ⌊a⌋ else none
  same a b := decide (a = b)
  less a b := decide (a < b)
  atMost a b := decide (a ≤ b)
  isFinite _ := true
  text a := toString ⌊a⌋

namespace Arithmetic

@[simp] theorem ofInt_real (n : Int) : (ofInt n : ℝ) = n := rfl

theorem nearest?_intCast (n : Int) : nearest? (n : ℝ) = some n := by
  show some (if (0 : ℝ) ≤ n then ⌊(n : ℝ) + 1 / 2⌋ else ⌈(n : ℝ) - 1 / 2⌉) = some n
  congr 1
  split_ifs
  · rw [Int.floor_intCast_add]
    norm_num
  · rw [Int.ceil_eq_iff]
    constructor <;> linarith

theorem signed_mul (s : Float.Model.UnpackedFloat.Sign) (m k : Nat) :
    Number.signed s (m * k) = Number.signed s m * k := by
  cases s <;> simp [Number.signed]

/-- The integer that a floating-point number is, as a real number. -/
theorem literal?_of_integer? {x : Float} {n : Int} (h : integer? x = some n) :
    LiteralValues.literal? x = some (n : ℝ) := by
  have h : Number.integer? x = some n := h
  unfold Number.integer? at h
  dsimp only [LiteralValues.literal?]
  cases hx : x.toModel.unpack with
  | finite s mantissa exponent =>
    rw [hx] at h
    dsimp only at h ⊢
    split at h
    next hneg =>
      obtain ⟨hdvd, h⟩ := Option.ite_none_right_eq_some.1 h
      obtain rfl := Option.some.inj h
      obtain ⟨k, rfl⟩ : ∃ k : Nat, exponent = -k :=
        ⟨exponent.natAbs, (by rw [Int.ofNat_natAbs_of_nonpos hneg.le, neg_neg])⟩
      rw [Int.natAbs_neg, Int.natAbs_natCast] at hdvd ⊢
      obtain ⟨m, rfl⟩ := Nat.dvd_of_mod_eq_zero hdvd
      have hpos : 0 < Nat.pow 2 k := Nat.pow_pos Nat.two_pos
      rw [Nat.mul_comm, Nat.mul_div_cancel _ hpos, signed_mul]
      simp
    next hpos =>
      obtain rfl := Option.some.inj h
      obtain ⟨k, rfl⟩ := Int.eq_ofNat_of_zero_le (not_lt.1 hpos)
      rw [Int.natAbs_natCast, signed_mul]
      simp
  | zero s =>
    rw [hx] at h
    obtain rfl := Option.some.inj h
    simp
  | notANumber | infinity =>
    rw [hx] at h
    cases h

end Arithmetic
end LineBasic
