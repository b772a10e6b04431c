import LineBasic.Proofs.Number.FloatOrder
import LineBasic.Proofs.Number.Packing

/-!
# The sign of zero

Two numbers are alike (`Arithmetic.Alike`) if they are equal or both zero, which is what equal means
for floating-point numbers that are compared by value. No operation of the arithmetic tells alike
numbers apart (`ZeroSigns`), as long as the library that computes powers and elementary functions
does not (`Library.IgnoresZeroSigns`).
-/

namespace LineBasic

namespace Arithmetic

variable {ν : Type} [Arithmetic ν]

/-- Equal, or zeros that may differ in their sign. -/
def Alike (x y : ν) : Prop := x = y ∨ isZero x = true ∧ isZero y = true

namespace Alike

variable {x y z : ν}

@[refl] theorem refl (x : ν) : Alike x x := .inl rfl

@[symm] theorem symm (h : Alike x y) : Alike y x := h.imp Eq.symm And.symm

@[trans] theorem trans (h : Alike x y) (h' : Alike y z) : Alike x z := by
  rcases h with rfl | ⟨hx, hy⟩
  · exact h'
  · rcases h' with rfl | ⟨-, hz⟩
    · exact .inr ⟨hx, hy⟩
    · exact .inr ⟨hx, hz⟩

/-- A function of which the values at zeros are alike. -/
theorem map {f : ν → ν} (hf : ∀ x y, isZero x = true → isZero y = true → Alike (f x) (f y))
    (h : Alike x y) : Alike (f x) (f y) := by
  rcases h with rfl | ⟨hx, hy⟩
  · rfl
  · exact hf x y hx hy

/-- A function that has one value for all zeros. -/
theorem eq_of_zero {α : Type} {f : ν → α} {a : α} (hf : ∀ x, isZero x = true → f x = a)
    (h : Alike x y) : f x = f y := by
  rcases h with rfl | ⟨hx, hy⟩
  · rfl
  · rw [hf x hx, hf y hy]

end Alike

/-- No operation tells numbers apart that differ in the sign of zero only. -/
class ZeroSigns (ν : Type) [Arithmetic ν] : Prop where
  neg {x y : ν} : Alike x y → Alike (-x) (-y)
  add {x y x' y' : ν} : Alike x x' → Alike y y' → Alike (x + y) (x' + y')
  sub {x y x' y' : ν} : Alike x x' → Alike y y' → Alike (x - y) (x' - y')
  mul {x y x' y' : ν} : Alike x x' → Alike y y' → Alike (x * y) (x' * y')
  /-- A divisor that is zero is not used. -/
  div {x y x' y' : ν} : Alike x x' → Alike y y' → isZero y = false → Alike (x / y) (x' / y')
  /-- A power that is not finite is not used. -/
  power {x y x' y' : ν} : Alike x x' → Alike y y' → isFinite (power x y) = true →
    Alike (power x y) (power x' y')
  floor {x y : ν} : Alike x y → Alike (floor x) (floor y)
  whole {x y : ν} : Alike x y → Alike (whole x) (whole y)
  absolute {x y : ν} : Alike x y → Alike (absolute x) (absolute y)
  elementary (f : Elementary) {x y : ν} : Alike x y → Alike (elementary f x) (elementary f y)
  nearest? {x y : ν} : Alike x y → nearest? x = nearest? y
  same {x y x' y' : ν} : Alike x x' → Alike y y' → same x y = same x' y'
  less {x y x' y' : ν} : Alike x x' → Alike y y' → less x y = less x' y'
  atMost {x y x' y' : ν} : Alike x x' → Alike y y' → atMost x y = atMost x' y'
  isFinite {x y : ν} : Alike x y → isFinite x = isFinite y

theorem word?_alike [ZeroSigns ν] {x y : ν} (h : Alike x y) : word? x = word? y := by
  unfold word?
  rw [ZeroSigns.nearest? h]

theorem isZero_alike [ZeroSigns ν] {x y : ν} (h : Alike x y) : isZero x = isZero y :=
  ZeroSigns.same h (.refl zero)

end Arithmetic

/-! ## Zeros among floating-point numbers -/

namespace Number

open Arithmetic Float.Model UnpackedFloat

theorem isZero_iff {x : Float} : isZero x = true ↔ ∃ s, parts x = .zero s := by
  have hzero : rank Arithmetic.zero = toLex (0, toLex (0, 0)) := by decide +kernel
  have hnumber : IsNumber Arithmetic.zero := by
    rw [← same_self_iff]
    decide +kernel
  rw [isZero, same_iff, hzero]
  constructor
  · rintro ⟨hx, -, hrank⟩
    unfold IsNumber at hx
    unfold rank at hrank
    unfold parts
    generalize x.toModel.unpack = u at hx hrank ⊢
    have hsize : (ofLex (unpackedRank u)).1 = 0 := congrArg (fun r => (ofLex r).1) hrank
    rcases u with (_ | _) | _ | s | ⟨_ | _, m, e, _⟩
    · exact absurd hsize (by decide)
    · exact absurd hsize (by decide)
    · exact absurd rfl hx
    · exact ⟨s, rfl⟩
    · exact absurd hsize (show (-1 : ℤ) ≠ 0 by decide)
    · exact absurd hsize (show (1 : ℤ) ≠ 0 by decide)
  · rintro ⟨s, hs⟩
    have hs : x.toModel.unpack = .zero s := hs
    refine ⟨?_, hnumber, ?_⟩
    · rw [IsNumber, hs]
      rintro ⟨⟩
    · rw [rank, hs]
      rfl

theorem isZero_assemble (s : Sign) : isZero (assemble (.zero s)) = true :=
  isZero_iff.2 ⟨s, parts_assemble (canonical_zero s)⟩

theorem alike_zeros (s t : Sign) : Alike (assemble (.zero s)) (assemble (.zero t)) :=
  .inr ⟨isZero_assemble s, isZero_assemble t⟩

theorem eq_assemble {x : Float} {u : UnpackedFloat} (h : parts x = u) : x = assemble u := by
  rw [← h, assemble_parts]

variable {x y x' y' : Float}

/-! ## Operations at zero -/

theorem neg_eq (x : Float) : -x = assemble (parts x).neg := rfl

theorem parts_neg (x : Float) : parts (-x) = (parts x).neg := by
  have hcanonical := canonical_parts x
  rw [neg_eq, parts_assemble]
  cases h : parts x <;> rw [h] at hcanonical <;> exact hcanonical

theorem add_eq (x y : Float) :
    x + y = assemble (UnpackedFloat.add Format.binary64 (parts x) (parts y)) := rfl

theorem sub_eq (x y : Float) :
    x - y = assemble (UnpackedFloat.sub Format.binary64 (parts x) (parts y)) := rfl

theorem mul_eq (x y : Float) :
    x * y = assemble (UnpackedFloat.mul Format.binary64 (parts x) (parts y)) := rfl

theorem div_eq (x y : Float) :
    x / y = assemble (UnpackedFloat.div Format.binary64 (parts x) (parts y)) := rfl

theorem neg_zero_alike (hx : isZero x = true) : Alike (-x) x := by
  obtain ⟨s, hs⟩ := isZero_iff.1 hx
  rw [neg_eq, hs, eq_assemble hs]
  exact alike_zeros _ s

theorem zero_add_alike (hx : isZero x = true) (y : Float) : Alike (x + y) y := by
  obtain ⟨s, hs⟩ := isZero_iff.1 hx
  rw [add_eq, hs]
  cases hy : parts y with
  | zero t =>
    rw [eq_assemble hy]
    change Alike (assemble (if s == t then .zero s else .zero .positive)) _
    split
    · exact alike_zeros s t
    · exact alike_zeros .positive t
  | _ => exact .inl (eq_assemble hy).symm

theorem zero_sub_alike (hx : isZero x = true) (y : Float) : Alike (x - y) (-y) := by
  obtain ⟨s, hs⟩ := isZero_iff.1 hx
  rw [sub_eq, neg_eq, hs]
  cases parts y with
  | zero t =>
    change Alike (assemble (if s == -t then .zero s else .zero .positive)) _
    split
    · exact alike_zeros s _
    · exact alike_zeros .positive _
  | _ => exact .inl rfl

theorem sub_zero_alike (x : Float) (hy : isZero y = true) : Alike (x - y) x := by
  obtain ⟨s, hs⟩ := isZero_iff.1 hy
  rw [sub_eq, hs]
  cases hx : parts x with
  | zero t =>
    rw [eq_assemble hx]
    change Alike (assemble (if t == -s then .zero t else .zero .positive)) _
    split
    · exact alike_zeros t t
    · exact alike_zeros .positive t
  | _ => exact .inl (eq_assemble hx).symm

theorem zero_mul_alike (hx : isZero x = true) (hx' : isZero x' = true) (y : Float) :
    Alike (x * y) (x' * y) := by
  obtain ⟨s, hs⟩ := isZero_iff.1 hx
  obtain ⟨s', hs'⟩ := isZero_iff.1 hx'
  rw [mul_eq, mul_eq, hs, hs']
  cases parts y with
  | zero t | finite t m e => exact alike_zeros _ _
  | _ => exact .inl rfl

theorem zero_div_alike (hx : isZero x = true) (hx' : isZero x' = true)
    (hy : isZero y = false) : Alike (x / y) (x' / y) := by
  obtain ⟨s, hs⟩ := isZero_iff.1 hx
  obtain ⟨s', hs'⟩ := isZero_iff.1 hx'
  rw [div_eq, div_eq, hs, hs']
  cases h : parts y with
  | zero t => exact absurd (isZero_iff.2 ⟨t, h⟩) (by rw [hy]; decide)
  | infinity t | finite t m e => exact alike_zeros _ _
  | notANumber => exact .inl rfl

/-! ## Sums and products in either order -/

theorem sum_comm (x y : Float) : x + y = y + x := by
  rw [add_eq, add_eq]
  congr 1
  rcases parts x with s | _ | s | ⟨s, m, e, _⟩ <;> rcases parts y with t | _ | t | ⟨t, n, f, _⟩ <;>
    try rfl
  case infinity.infinity => cases s <;> cases t <;> rfl
  case zero.zero => cases s <;> cases t <;> rfl
  case finite.finite =>
    change normalize _ (s.apply _ + t.apply _) (min e f) _ =
      normalize _ (t.apply _ + s.apply _) (min f e) _
    rw [min_comm e f, Int.add_comm (t.apply _)]

theorem product_comm (x y : Float) : x * y = y * x := by
  have sign (s t : Sign) : s * t = t * s := by cases s <;> cases t <;> rfl
  rw [mul_eq, mul_eq]
  congr 1
  rcases parts x with s | _ | s | ⟨s, m, e, _⟩ <;> rcases parts y with t | _ | t | ⟨t, n, f, _⟩ <;>
    try rfl
  case infinity.infinity | infinity.finite | finite.infinity =>
    exact congrArg UnpackedFloat.infinity (sign s t)
  case zero.zero | zero.finite | finite.zero => exact congrArg UnpackedFloat.zero (sign s t)
  case finite.finite =>
    change roundWithAccuracy _ (s * t) (m * n) (e + f) .exact = roundWithAccuracy _ _ _ _ .exact
    rw [sign, Nat.mul_comm, Int.add_comm]

/-! ## Operations on alike numbers -/

theorem neg_alike (h : Alike x y) : Alike (-x) (-y) :=
  h.map fun _ _ hx hy => (neg_zero_alike hx).trans (.trans (.inr ⟨hx, hy⟩) (neg_zero_alike hy).symm)

theorem add_alike (hx : Alike x x') (hy : Alike y y') : Alike (x + y) (x' + y') := by
  have left {x x' : Float} (y : Float) (h : Alike x x') : Alike (x + y) (x' + y) :=
    h.map (f := (· + y)) fun x x' hx hx' => (zero_add_alike hx y).trans (zero_add_alike hx' y).symm
  refine (left y hx).trans ?_
  rw [sum_comm x' y, sum_comm x' y']
  exact left x' hy

theorem sub_alike (hx : Alike x x') (hy : Alike y y') : Alike (x - y) (x' - y') := by
  have left : Alike (x - y) (x' - y) :=
    hx.map (f := (· - y)) fun x x' hx hx' => (zero_sub_alike hx y).trans (zero_sub_alike hx' y).symm
  exact left.trans <| hy.map (f := (x' - ·)) fun y y' hy hy' =>
    (sub_zero_alike x' hy).trans (sub_zero_alike x' hy').symm

theorem mul_alike (hx : Alike x x') (hy : Alike y y') : Alike (x * y) (x' * y') := by
  have left {x x' : Float} (y : Float) (h : Alike x x') : Alike (x * y) (x' * y) :=
    h.map (f := (· * y)) fun x x' hx hx' => zero_mul_alike hx hx' y
  refine (left y hx).trans ?_
  rw [product_comm x' y, product_comm x' y']
  exact left x' hy

theorem div_alike (hx : Alike x x') (hy : Alike y y') (hzero : isZero y = false) :
    Alike (x / y) (x' / y') := by
  rcases hy with rfl | ⟨hy, -⟩
  · exact hx.map (f := (· / y)) fun x x' hx hx' => zero_div_alike hx hx' hzero
  · rw [hzero] at hy
    cases hy

theorem floor_zero (h : isZero x = true) : floor x = x := by
  obtain ⟨s, hs⟩ := isZero_iff.1 h
  have hs : x.toModel.unpack = .zero s := hs
  rw [floor, hs]

/-- Comparisons look at ranks, which zeros share. -/
theorem rank_of_isZero (h : isZero x = true) : IsNumber x ∧ rank x = toLex (0, toLex (0, 0)) := by
  obtain ⟨s, hs⟩ := isZero_iff.1 h
  have hs : x.toModel.unpack = .zero s := hs
  rw [IsNumber, rank, hs]
  exact ⟨by rintro ⟨⟩, rfl⟩

theorem rank_alike (h : Alike x y) : (IsNumber x ↔ IsNumber y) ∧ rank x = rank y := by
  rcases h with rfl | ⟨hx, hy⟩
  · exact ⟨.rfl, rfl⟩
  · obtain ⟨hx, hx'⟩ := rank_of_isZero hx
    obtain ⟨hy, hy'⟩ := rank_of_isZero hy
    exact ⟨iff_of_true hx hy, hx'.trans hy'.symm⟩

theorem less_alike (hx : Alike x x') (hy : Alike y y') : less x y = less x' y' := by
  rw [Bool.eq_iff_iff, less_iff, less_iff, (rank_alike hx).1, (rank_alike hx).2, (rank_alike hy).1,
    (rank_alike hy).2]

theorem atMost_alike (hx : Alike x x') (hy : Alike y y') : atMost x y = atMost x' y' := by
  rw [Bool.eq_iff_iff, atMost_iff, atMost_iff, (rank_alike hx).1, (rank_alike hx).2,
    (rank_alike hy).1, (rank_alike hy).2]

theorem same_alike (hx : Alike x x') (hy : Alike y y') : same x y = same x' y' := by
  rw [Bool.eq_iff_iff, same_iff, same_iff, (rank_alike hx).1, (rank_alike hx).2, (rank_alike hy).1,
    (rank_alike hy).2]

theorem whole_alike (h : Alike x y) : Alike (whole x) (whole y) := by
  refine h.map fun x y hx hy => ?_
  have zero {x : Float} (hx : isZero x = true) : whole x = x := by
    have hless : ¬ x < 0 := by
      intro hlt
      have hrank := (less_iff.1 (decide_eq_true hlt)).2.2
      have hzero : rank 0 = toLex (0, toLex (0, 0)) := by decide +kernel
      rw [(rank_of_isZero hx).2, hzero] at hrank
      exact lt_irrefl _ hrank
    rw [whole, if_neg hless, floor_zero hx]
  rw [zero hx, zero hy]
  exact .inr ⟨hx, hy⟩

theorem absolute_alike (h : Alike x y) : Alike x.abs y.abs := by
  refine h.map fun x y hx hy => ?_
  have zero {x : Float} (hx : isZero x = true) : x.abs = assemble (.zero .positive) := by
    obtain ⟨s, hs⟩ := isZero_iff.1 hx
    have habs : x.abs = assemble (parts x).abs := rfl
    rw [habs, hs]
    rfl
  rw [zero hx, zero hy]

theorem nearest?_alike (h : Alike x y) : nearest? x = nearest? y := by
  refine h.eq_of_zero (a := some 0) fun x hx => ?_
  obtain ⟨s, hs⟩ := isZero_iff.1 hx
  have hs : x.toModel.unpack = .zero s := hs
  rw [nearest?, hs]

theorem isFinite_alike (h : Alike x y) : Arithmetic.isFinite x = Arithmetic.isFinite y := by
  refine h.eq_of_zero (a := true) fun x hx => ?_
  obtain ⟨s, hs⟩ := isZero_iff.1 hx
  rw [eq_assemble hs]
  cases s <;> decide +kernel

end Number

/-! ## The library -/

/-- A library that computes powers and elementary functions. -/
structure Library where
  power : Float → Float → Float
  elementary : Elementary → Float → Float

/-- The library with which programs run. The numbers with this library are `Float`. -/
def Library.machine : Library := ⟨Float.pow, Number.elementary⟩

/-- Floating-point numbers with a library. -/
def Machine (_ : Library) : Type := Float

instance (library : Library) : DecidableEq (Machine library) := inferInstanceAs (DecidableEq Float)

/-- The arithmetic of floating-point numbers, powers and elementary functions left to a library. -/
instance (library : Library) : Arithmetic (Machine library) :=
  { (inferInstance : Arithmetic Float) with
    power := library.power
    elementary := library.elementary }

open Arithmetic

/-- The functions have values for zeros that are alike; powers may also be infinite for both. -/
structure Library.IgnoresZeroSigns (library : Library) : Prop where
  power {x y x' y' : Float} : Alike x x' → Alike y y' →
    Arithmetic.isFinite (library.power x y) = true →
    Alike (library.power x y) (library.power x' y')
  elementary (f : Elementary) {x y : Float} : Alike x y →
    Alike (library.elementary f x) (library.elementary f y)

theorem Library.IgnoresZeroSigns.zeroSigns {library : Library} (h : library.IgnoresZeroSigns) :
    ZeroSigns (Machine library) where
  neg := Number.neg_alike
  add := Number.add_alike
  sub := Number.sub_alike
  mul := Number.mul_alike
  div := Number.div_alike
  power := h.power
  floor h := h.map (f := Number.floor) fun _ _ hx hy =>
    .trans (.inl (Number.floor_zero hx)) (.trans (.inr ⟨hx, hy⟩) (.inl (Number.floor_zero hy).symm))
  whole := Number.whole_alike
  absolute := Number.absolute_alike
  elementary := h.elementary
  nearest? := Number.nearest?_alike
  same := Number.same_alike
  less := Number.less_alike
  atMost := Number.atMost_alike
  isFinite := Number.isFinite_alike

/-- A library that knows squares and square roots. -/
def squaringLibrary : Library where
  power x y := if y == 2 then x * x else 1
  elementary
    | .squareRoot, x => x.sqrt
    | _, _ => 0

theorem squaringLibrary_ignoresZeroSigns : squaringLibrary.IgnoresZeroSigns where
  power hx hy _ := by
    have htwo := Number.same_alike hy (.refl 2)
    change (_ == _) = (_ == _) at htwo
    unfold squaringLibrary
    dsimp only
    rw [htwo]
    split
    · exact Number.mul_alike hx hx
    · rfl
  elementary f {x y} h := by
    cases f with
    | squareRoot =>
      refine h.map fun x y hx hy => .inr ?_
      obtain ⟨s, hs⟩ := Number.isZero_iff.1 hx
      obtain ⟨t, ht⟩ := Number.isZero_iff.1 hy
      rw [Number.eq_assemble hs, Number.eq_assemble ht]
      cases s <;> cases t <;> decide +kernel
    | _ => exact .refl _

end LineBasic
