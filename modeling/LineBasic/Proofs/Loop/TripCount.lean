import Mathlib.Data.Set.Card
import LineBasic.Loop.TripCount
import LineBasic.Number.Integers

/-!
# Trip counts of loops with whole bounds

Numbers are read as exact here. With the distance from the start to the bound, in the direction of
the step, divided by the size of the step, the body runs once more than the floor of the quotient
says (`Loop.notPassed_iff`). Where the distance is short of the next multiple of the step by no more
than the tolerance allows, one round more is counted (`Loop.tripCount?_ofInt`); so a loop whose
counter starts past its bound may count as one that runs (`Loop.tripCount?_overcounts`).
-/

namespace LineBasic.Loop

variable {start stop step : Int}

/-! ## Rounds -/

/-- After `k` steps the counter has not passed the bound. -/
def NotPassed (start stop step : Int) (k : Nat) : Prop :=
  (0 < step → start + k * step ≤ stop) ∧ (step < 0 → stop ≤ start + k * step)

/-- How far the bound lies from the start in the direction of the step. -/
def distance (start stop step : Int) : Int := if 0 < step then stop - start else start - stop

/-- The number of rounds of the body. -/
def rounds (start stop step : Int) : Nat := (distance start stop step / |step| + 1).toNat

/-- The counter with which the loop is left passes the bound by a small part of a step: by half of
it at most, and by one part in `10 ^ 9` of the step for each round. -/
def BarelyPasses (start stop step : Int) : Prop :=
  let passed := |start + rounds start stop step * step - stop|
  2 * passed ≤ |step| ∧ 1000000000 * passed ≤ |step| * max 1 (rounds start stop step : Int)

instance : Decidable (BarelyPasses start stop step) := inferInstanceAs (Decidable (_ ∧ _))

theorem distance_of_pos (h : 0 < step) : distance start stop step = stop - start := if_pos h

theorem distance_of_neg (h : step < 0) : distance start stop step = start - stop :=
  if_neg (not_lt.2 h.le)

theorem notPassed_iff_le_distance (h : step ≠ 0) (k : Nat) :
    NotPassed start stop step k ↔ k * |step| ≤ distance start stop step := by
  rcases lt_or_gt_of_ne h with hneg | hpos
  · rw [NotPassed, distance_of_neg hneg, abs_of_neg hneg, mul_neg]
    constructor
    · rintro ⟨-, hle⟩
      linarith [hle hneg]
    · intro hle
      exact ⟨fun hpos => absurd hneg hpos.asymm, fun _ => by linarith⟩
  · rw [NotPassed, distance_of_pos hpos, abs_of_pos hpos]
    constructor
    · rintro ⟨hle, -⟩
      linarith [hle hpos]
    · intro hle
      exact ⟨fun _ => by linarith, fun hneg => absurd hpos hneg.asymm⟩

/-- The rounds are counted by the floor of the quotient. -/
theorem notPassed_iff (h : step ≠ 0) (k : Nat) :
    NotPassed start stop step k ↔ k < rounds start stop step := by
  rw [notPassed_iff_le_distance h, ← Int.le_ediv_iff_mul_le (abs_pos.2 h), rounds, Int.lt_toNat,
    Int.lt_add_one_iff]

theorem encard_notPassed (h : step ≠ 0) :
    {k : Nat | NotPassed start stop step k}.encard = rounds start stop step := by
  have hset : {k : Nat | NotPassed start stop step k} = Set.Iio (rounds start stop step) :=
    Set.ext (notPassed_iff h)
  rw [hset, ← Finset.coe_Iio, Set.encard_coe_eq_coe_finsetCard, Nat.card_Iio]

/-! ## Quotients -/

section Quotient

variable {d s : Int}

theorem div_eq_floor_add (hs : 0 < s) :
    (d : ℝ) / s = (d / s : Int) + ((d % s : Int) : ℝ) / s := by
  have hne : (s : ℝ) ≠ 0 := Int.cast_ne_zero.2 hs.ne'
  have hsum : (s : ℝ) * (d / s : Int) + (d % s : Int) = d := by
    exact_mod_cast Int.mul_ediv_add_emod d s
  rw [eq_comm, ← hsum]
  field_simp

theorem floor_div (hs : 0 < s) : ⌊(d : ℝ) / s⌋ = d / s := by
  have hreal : (0 : ℝ) < s := Int.cast_pos.2 hs
  rw [div_eq_floor_add hs, Int.floor_intCast_add, add_eq_left, Int.floor_eq_zero_iff]
  refine ⟨div_nonneg (Int.cast_nonneg (Int.emod_nonneg d hs.ne')) hreal.le, ?_⟩
  rw [div_lt_one hreal, Int.cast_lt]
  exact Int.emod_lt_of_pos d hs

/-- The nearest whole number is the next one after the floor from the half on, and from above it for
a negative number. -/
theorem rounded_div (hs : 0 < s) :
    rounded ((d : ℝ) / s) =
      ((if s < 2 * (d % s) ∨ s = 2 * (d % s) ∧ 0 ≤ d then d / s + 1 else d / s : Int) : ℝ) := by
  have hreal : (0 : ℝ) < s := Int.cast_pos.2 hs
  have hnonneg := Int.emod_nonneg d hs.ne'
  have hlt := Int.emod_lt_of_pos d hs
  have hquotient := div_eq_floor_add (d := d) hs
  have hsign : (0 : ℝ) ≤ (d : ℝ) / s ↔ 0 ≤ d := by
    rw [le_div_iff₀ hreal, zero_mul, Int.cast_nonneg_iff]
  -- the fraction behind the floor, compared with a half
  have hhalf : ((d % s : Int) : ℝ) / s < 1 / 2 ↔ 2 * (d % s) < s := by
    rw [div_lt_div_iff₀ hreal two_pos, one_mul, mul_comm]
    exact_mod_cast Iff.rfl
  have hhalf' : 1 / 2 < ((d % s : Int) : ℝ) / s ↔ s < 2 * (d % s) := by
    rw [div_lt_div_iff₀ two_pos hreal, one_mul, mul_comm]
    exact_mod_cast Iff.rfl
  have hzero : 0 ≤ ((d % s : Int) : ℝ) / s := div_nonneg (Int.cast_nonneg hnonneg) hreal.le
  have hone : ((d % s : Int) : ℝ) / s < 1 := (div_lt_one hreal).2 (Int.cast_lt.2 hlt)
  change ((if 0 ≤ (d : ℝ) / s then ⌊(d : ℝ) / s + 1 / 2⌋ else ⌈(d : ℝ) / s - 1 / 2⌉ : Int) : ℝ) = _
  rw [Int.cast_inj]
  simp only [hsign]
  by_cases hd : 0 ≤ d
  · simp only [hd, if_true, and_true, ← le_iff_lt_or_eq]
    split_ifs with hle
    · have := mt hhalf.1 (not_lt.2 hle)
      rw [Int.floor_eq_iff, hquotient]
      push_cast
      constructor <;> linarith
    · have := hhalf.2 (not_le.1 hle)
      rw [Int.floor_eq_iff, hquotient]
      constructor <;> linarith
  · simp only [hd, if_false, and_false, or_false]
    split_ifs with hle
    · have := hhalf'.2 hle
      rw [Int.ceil_eq_iff, hquotient]
      push_cast
      constructor <;> linarith
    · have := mt hhalf'.1 hle
      rw [Int.ceil_eq_iff, hquotient]
      constructor <;> linarith

/-- The scale of the tolerance is at least one. -/
theorem scale_ofInt (n : Int) :
    (if Arithmetic.less (Arithmetic.absolute (n : ℝ)) Arithmetic.one then Arithmetic.one
      else Arithmetic.absolute (n : ℝ) : ℝ) = ((max 1 |n| : Int) : ℝ) := by
  change (if decide (|(n : ℝ)| < ((1 : Int) : ℝ)) then ((1 : Int) : ℝ) else |(n : ℝ)|) = _
  rw [← Int.cast_abs, ← apply_ite Int.cast, Int.cast_inj]
  simp only [Int.cast_lt, decide_eq_true_eq]
  split_ifs <;> omega

theorem within_tolerance_iff (hs : 0 < s) (gap scale : Int) :
    Arithmetic.atMost ((gap : ℝ) / s) (tolerance * scale) = true ↔
      1000000000 * gap ≤ s * scale := by
  have hreal : (0 : ℝ) < s := Int.cast_pos.2 hs
  change decide ((gap : ℝ) / s ≤ ((1 : Int) : ℝ) / ((1000000000 : Int) : ℝ) * scale) = true ↔ _
  rw [decide_eq_true_iff, div_mul_eq_mul_div, div_le_div_iff₀ hreal (by norm_num), Int.cast_one,
    one_mul, mul_comm (gap : ℝ), mul_comm (scale : ℝ)]
  exact_mod_cast Iff.rfl

/-- The quotient counts as the next whole number if that is the nearest one and within the
tolerance. -/
theorem wholeSteps_div (hs : 0 < s) :
    wholeSteps ((d : ℝ) / s) =
      ((if (s < 2 * (d % s) ∨ s = 2 * (d % s) ∧ 0 ≤ d) ∧
        1000000000 * (s - d % s) ≤ s * max 1 |d / s + 1| then d / s + 1 else d / s : Int) : ℝ) := by
  have hreal : (0 : ℝ) < s := Int.cast_pos.2 hs
  have hlt := Int.emod_lt_of_pos d hs
  have hfloor : Arithmetic.floor ((d : ℝ) / s) = ((d / s : Int) : ℝ) :=
    congrArg Int.cast (floor_div hs)
  have hgap : Arithmetic.absolute ((d : ℝ) / s - (d / s + 1 : Int)) =
      ((s - d % s : Int) : ℝ) / s := by
    change |(d : ℝ) / s - (d / s + 1 : Int)| = _
    rw [div_eq_floor_add hs, abs_of_nonpos]
    · push_cast
      rw [sub_div, div_self hreal.ne']
      ring
    · have := (div_lt_one hreal).2 (Int.cast_lt.2 hlt : ((d % s : Int) : ℝ) < s)
      push_cast
      linarith
  unfold wholeSteps
  rw [hfloor, rounded_div hs]
  by_cases hnext : s < 2 * (d % s) ∨ s = 2 * (d % s) ∧ 0 ≤ d
  · simp only [hnext, if_true, true_and]
    rw [scale_ofInt, hgap]
    simp only [within_tolerance_iff hs]
    exact (apply_ite Int.cast _ _ _).symm
  · simp only [hnext, if_false, false_and, ite_self]

end Quotient

/-! ## Trip counts -/

/-- The number of rounds, one more where the counter barely passes the bound. -/
def countedRounds (start stop step : Int) : Nat :=
  if BarelyPasses start stop step then rounds start stop step + 1 else rounds start stop step

/-- The result has 64 bits. -/
def largestTripCount : Nat := 18446744073709551615

theorem div_eq_distance_div (h : step ≠ 0) :
    ((stop : ℝ) - start) / step = (distance start stop step : ℝ) / (|step| : Int) := by
  rcases lt_or_gt_of_ne h with hneg | hpos
  · rw [distance_of_neg hneg, abs_of_neg hneg, ← neg_div_neg_eq]
    push_cast
    ring
  · rw [distance_of_pos hpos, abs_of_pos hpos]
    push_cast
    rfl

/-- What the counter passes the bound by is what the distance lacks of a multiple of the step. -/
theorem abs_passed (h : step ≠ 0) (n : Int) :
    |start + n * step - stop| = |n * |step| - distance start stop step| := by
  rcases lt_or_gt_of_ne h with hneg | hpos
  · rw [distance_of_neg hneg, abs_of_neg hneg, ← abs_neg]
    congr 1
    ring
  · rw [distance_of_pos hpos, abs_of_pos hpos]
    congr 1
    ring

/-- If the bound is less than a step behind the start, the first counter that passes the bound does
so by what the distance lacks of the next multiple of the step. -/
theorem barelyPasses_iff (h : step ≠ 0) (hnear : -1 ≤ distance start stop step / |step|) :
    BarelyPasses start stop step ↔
      |step| ≤ 2 * (distance start stop step % |step|) ∧
        1000000000 * (|step| - distance start stop step % |step|) ≤
          |step| * max 1 |distance start stop step / |step| + 1| := by
  have hdiv := Int.mul_ediv_add_emod (distance start stop step) |step|
  have hlt := Int.emod_lt_of_pos (distance start stop step) (abs_pos.2 h)
  have hrounds : (rounds start stop step : Int) = distance start stop step / |step| + 1 :=
    Int.toNat_of_nonneg (by omega)
  have hpassed : |start + rounds start stop step * step - stop| =
      |step| - distance start stop step % |step| := by
    rw [abs_passed h, hrounds, abs_of_nonneg] <;> linarith
  rw [BarelyPasses, hpassed, hrounds, abs_of_nonneg (by omega : 0 ≤ _ / |step| + 1)]
  exact and_congr_left' (by omega)

/-- A bound that lies further back is not barely passed. -/
theorem not_barelyPasses (h : step ≠ 0) (hfar : distance start stop step / |step| < -1) :
    ¬ BarelyPasses start stop step := by
  have hs : 0 < |step| := abs_pos.2 h
  have hrounds : (rounds start stop step : Int) = 0 := by rw [rounds]; omega
  have hdistance : distance start stop step < -1 * |step| :=
    (Int.ediv_lt_iff_lt_mul hs).1 hfar
  rintro ⟨hhalf, -⟩
  rw [abs_passed h, hrounds, zero_mul, zero_sub, abs_of_nonneg (by omega)] at hhalf
  omega

theorem countedRounds_eq (start stop : Int) {step : Int} (h : step ≠ 0) :
    let d := distance start stop step
    let s := |step|
    (countedRounds start stop step : Int) =
      max 0 ((if (s < 2 * (d % s) ∨ s = 2 * (d % s) ∧ 0 ≤ d) ∧
        1000000000 * (s - d % s) ≤ s * max 1 |d / s + 1| then d / s + 1 else d / s) + 1) := by
  intro d s
  have hs : 0 < s := abs_pos.2 h
  have hrounds : (rounds start stop step : Int) = max (d / s + 1) 0 := Int.toNat_eq_max _
  rw [countedRounds]
  rcases lt_or_ge (d / s) (-1) with hfar | hnear
  · rw [if_neg (not_barelyPasses h hfar), hrounds]
    split_ifs <;> omega
  · have hcondition : BarelyPasses start stop step ↔
        (s < 2 * (d % s) ∨ s = 2 * (d % s) ∧ 0 ≤ d) ∧
          1000000000 * (s - d % s) ≤ s * max 1 |d / s + 1| := by
      refine (barelyPasses_iff h hnear).trans (and_congr_left fun hsmall => ?_)
      rw [le_iff_lt_or_eq]
      refine or_congr_right ⟨fun hhalf => ⟨hhalf, ?_⟩, And.left⟩
      -- with the bound half a step behind the start, the tolerance is that of a single round
      by_contra hd
      have hnegative : d / s < 0 := Int.ediv_neg_of_neg_of_pos (not_le.1 hd) hs
      have hfloor : d / s = -1 := by omega
      change 1000000000 * (s - d % s) ≤ s * max 1 |d / s + 1| at hsmall
      change s = 2 * (d % s) at hhalf
      rw [hfloor] at hsmall
      norm_num at hsmall
      omega
    simp only [hcondition]
    split_ifs <;> omega

/-- A whole number of trips is reported as it is, up to the largest one. -/
theorem tripCount?_of_wholeSteps {x y z : ℝ} {n : Int} (hz : z ≠ 0)
    (h : wholeSteps ((y - x) / z) = (n : ℝ)) :
    tripCount? x y z = some (min (n + 1).toNat largestTripCount) := by
  have hfinite : (Arithmetic.isZero z || !(Arithmetic.isFinite x && Arithmetic.isFinite y &&
      Arithmetic.isFinite z)) = false := by
    change (decide (z = ((0 : Int) : ℝ)) || !(true && true && true)) = false
    simpa using hz
  have hsum : (n : ℝ) + Arithmetic.one = ((n + 1 : Int) : ℝ) := (Int.cast_add n 1).symm
  have hinteger : Arithmetic.integer? ((n + 1 : Int) : ℝ) = some (n + 1) := by
    change (if ((n + 1 : Int) : ℝ) = ⌊((n + 1 : Int) : ℝ)⌋ then some ⌊((n + 1 : Int) : ℝ)⌋
      else none) = _
    rw [Int.floor_intCast, if_pos rfl]
  rw [tripCount?, hfinite, if_neg Bool.false_ne_true, h, hsum]
  dsimp only
  rw [hinteger]
  rfl

theorem tripCount?_eq (h : step ≠ 0) :
    tripCount? (start : ℝ) stop step =
      some (min (countedRounds start stop step) largestTripCount) := by
  have hsteps := wholeSteps_div (d := distance start stop step) (abs_pos.2 h)
  rw [← div_eq_distance_div h] at hsteps
  rw [tripCount?_of_wholeSteps (Int.cast_ne_zero.2 h) hsteps]
  have hcounted := countedRounds_eq start stop h
  dsimp only at hcounted
  rw [max_comm, ← Int.toNat_eq_max, Int.natCast_inj] at hcounted
  rw [hcounted]

/--
The number of rounds is the number of steps after which the counter has not passed the bound. It is
what is reported, up to the largest number of 64 bits, but for a loop whose counter barely passes
the bound: there one round more is counted.
-/
theorem tripCount?_ofInt (start stop step : Int) (h : step ≠ 0) :
    {k : Nat | NotPassed start stop step k}.encard = rounds start stop step ∧
      tripCount? (start : ℝ) stop step = some (min
        (if BarelyPasses start stop step then rounds start stop step + 1
          else rounds start stop step) largestTripCount) :=
  ⟨encard_notPassed h, tripCount?_eq h⟩

/-- From 0 to 20 by 7, the body runs for 0, 7 and 14. -/
theorem tripCount?_ofInt_sevens :
    (7 : Int) ≠ 0 ∧ {k : Nat | NotPassed 0 20 7 k}.encard = 3 ∧
      tripCount? ((0 : Int) : ℝ) (20 : Int) (7 : Int) = some 3 :=
  have hne : (7 : Int) ≠ 0 := by decide
  ⟨hne, tripCount?_ofInt 0 20 7 hne⟩

/-- From 1 to 0 in steps of `10 ^ 10`, the counter has passed the bound from the start, and yet one
round is counted. -/
theorem tripCount?_overcounts :
    {k : Nat | NotPassed 1 0 10000000000 k}.encard = 0 ∧
      tripCount? ((1 : Int) : ℝ) (0 : Int) (10000000000 : Int) = some 1 :=
  have hne : (10000000000 : Int) ≠ 0 := by decide
  ⟨encard_notPassed hne, tripCount?_eq hne⟩

end LineBasic.Loop
