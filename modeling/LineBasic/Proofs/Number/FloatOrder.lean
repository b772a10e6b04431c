import Mathlib.Data.Prod.Lex
import LineBasic.Number.Arithmetic

/-!
# The order of floating-point numbers

The comparisons of floating-point numbers are those of their ranks in a linear order, and fail where
one of the two is not a number. Zeros of both signs have the same rank.
-/

namespace LineBasic

open Float.Model

namespace Number

/-- The place of an unpacked number in the order: its sign and size, its exponent, its mantissa. -/
def unpackedRank : UnpackedFloat → ℤ ×ₗ ℤ ×ₗ ℤ
  | .infinity .negative => toLex (-2, toLex (0, 0))
  | .finite .negative mantissa exponent _ => toLex (-1, toLex (-exponent, -mantissa))
  | .zero _ | .notANumber => toLex (0, toLex (0, 0))
  | .finite .positive mantissa exponent _ => toLex (1, toLex (exponent, mantissa))
  | .infinity .positive => toLex (2, toLex (0, 0))

theorem compare_natCast (a b : Nat) : compare (a : Int) b = compare a b := by
  simp only [compare, compareOfLessAndEq, Int.ofNat_lt, Int.natCast_inj]

theorem compare_neg (a b : Int) : compare (-a) (-b) = (compare a b).swap := by
  simp only [compare, compareOfLessAndEq, Int.neg_lt_neg_iff, Int.neg_inj]
  rcases Int.lt_trichotomy a b with h | rfl | h
  · rw [if_neg (Int.lt_asymm h), if_neg (Int.ne_of_lt h), if_pos h]
    rfl
  · simp
  · rw [if_pos h, if_neg (Int.lt_asymm h), if_neg (Int.ne_of_gt h)]
    rfl

theorem compare_eq_some {a b : UnpackedFloat} (ha : a ≠ .notANumber) (hb : b ≠ .notANumber) :
    a.compare b = some (compare (unpackedRank a) (unpackedRank b)) := by
  rcases a with (_ | _) | _ | _ | ⟨_ | _, m, e, _⟩ <;>
    rcases b with (_ | _) | _ | _ | ⟨_ | _, m', e', _⟩ <;>
    first | exact absurd rfl ha | exact absurd rfl hb | rfl | skip
  all_goals dsimp only [UnpackedFloat.compare, unpackedRank]
  all_goals simp only [Prod.Lex.compare_def, compareLex, compareOn, ofLex_toLex, compare_natCast,
    compare_neg, Ordering.swap_then]
  all_goals rfl

theorem compare_eq_none {a b : UnpackedFloat} (h : a = .notANumber ∨ b = .notANumber) :
    a.compare b = none := by
  rcases h with rfl | rfl
  · rfl
  · rcases a with (_ | _) | _ | _ | ⟨_ | _, m, e, _⟩ <;> rfl

/-- How two unpacked numbers compare, whatever is read off that. -/
theorem compare_any_iff {a b : UnpackedFloat} {test : Ordering → Bool} :
    (a.compare b).any test = true ↔
      a ≠ .notANumber ∧ b ≠ .notANumber ∧
        test (compare (unpackedRank a) (unpackedRank b)) = true := by
  by_cases h : a = .notANumber ∨ b = .notANumber
  · rw [compare_eq_none h]
    rcases h with rfl | rfl <;> simp
  · rw [not_or] at h
    rw [compare_eq_some h.1 h.2]
    simp [h.1, h.2]

def rank (x : Float) : ℤ ×ₗ ℤ ×ₗ ℤ := unpackedRank x.toModel.unpack

def IsNumber (x : Float) : Prop := x.toModel.unpack ≠ .notANumber

variable {x y : Float}

theorem less_iff : Arithmetic.less x y = true ↔ IsNumber x ∧ IsNumber y ∧ rank x < rank y := by
  have hless :
      Arithmetic.less x y = (x.toModel.unpack.compare y.toModel.unpack).any (· == .lt) := by
    show decide (x.lt y = true) = _
    rw [Bool.decide_eq_true]
    show decide ((x.toModel.unpack.compare y.toModel.unpack == some .lt) = true) = _
    rw [Bool.decide_eq_true]
    cases x.toModel.unpack.compare y.toModel.unpack <;> rfl
  rw [hless, compare_any_iff, beq_iff_eq, compare_lt_iff_lt]
  rfl

theorem atMost_iff :
    Arithmetic.atMost x y = true ↔ IsNumber x ∧ IsNumber y ∧ rank x ≤ rank y := by
  have hle : Arithmetic.atMost x y = (x.toModel.unpack.compare y.toModel.unpack).any (·.isLE) := by
    show decide (x.le y = true) = _
    rw [Bool.decide_eq_true]
    exact Bool.decide_eq_true
  rw [hle, compare_any_iff, ← Ordering.ne_gt_iff_isLE]
  exact and_congr_right fun _ => and_congr_right fun _ => compare_le_iff_le

theorem same_iff : Arithmetic.same x y = true ↔ IsNumber x ∧ IsNumber y ∧ rank x = rank y := by
  have hsame :
      Arithmetic.same x y = (x.toModel.unpack.compare y.toModel.unpack).any (· == .eq) := by
    show (x.toModel.unpack.compare y.toModel.unpack == some .eq) = _
    cases x.toModel.unpack.compare y.toModel.unpack <;> rfl
  rw [hsame, compare_any_iff, beq_iff_eq, compare_eq_iff_eq]
  rfl

theorem same_self_iff : Arithmetic.same x x = true ↔ IsNumber x :=
  same_iff.trans ⟨fun h => h.1, fun h => ⟨h, h, rfl⟩⟩

/-! ## Truth values -/

/-- Zero of either sign is the word zero. -/
theorem word?_of_isZero (h : Arithmetic.isZero x = true) : Arithmetic.word? x = some 0 := by
  have hzero : rank Arithmetic.zero = toLex (0, toLex (0, 0)) := by rfl
  obtain ⟨hx, -, hrank⟩ := same_iff.1 h
  rw [hzero, rank] at hrank
  have hnearest : Arithmetic.nearest? x = some 0 := by
    show nearest? x = some 0
    rw [nearest?]
    rw [IsNumber] at hx
    generalize x.toModel.unpack = u at hx hrank ⊢
    have hsize : (ofLex (unpackedRank u)).1 = 0 := congrArg (fun r => (ofLex r).1) hrank
    rcases u with (_ | _) | _ | _ | ⟨_ | _, m, e, _⟩
    · exact absurd hsize (by decide)
    · exact absurd hsize (by decide)
    · exact absurd rfl hx
    · rfl
    · exact absurd hsize (show (-1 : ℤ) ≠ 0 by decide)
    · exact absurd hsize (show (1 : ℤ) ≠ 0 by decide)
  rw [Arithmetic.word?, hnearest]
  rfl

theorem isZero_truth (b : Bool) : Arithmetic.isZero (Arithmetic.truth b : Float) = !b := by
  cases b <;> rfl

theorem word?_truth (b : Bool) :
    Arithmetic.word? (Arithmetic.truth b : Float) = some (if b then -1 else 0) := by
  cases b <;> rfl

end Number
end LineBasic
