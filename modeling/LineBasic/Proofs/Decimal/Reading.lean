import LineBasic.Decimal.Basic
import LineBasic.Proofs.Number.ExactWords

/-!
# Decimals as floating-point numbers

The number nearest to a decimal depends on the value of the decimal alone, not on how the value is
divided into digits and a power of ten (`Decimal.toFloat_of_value_eq`). The shortest decimal of a
number reads back as that number (`Decimal.toFloat_shortest`).
-/

namespace LineBasic.Decimal

open Float.Model UnpackedFloat Number

variable {d d' : Decimal} {m : Nat} {e : Int}

/-- The rational number that the decimal stands for. -/
def value (d : Decimal) : ℚ := d.digits * 10 ^ d.exponent

theorem value_pos_iff : 0 < d.value ↔ 0 < d.digits := by
  have hten : (0 : ℚ) < 10 ^ d.exponent := zpow_pos (by norm_num) _
  unfold value
  rw [mul_pos_iff_of_pos_right hten, Nat.cast_pos]

/-! ## Rounding -/

theorem exists_rounds (h : 0 < d.digits) : ∃ u, Rounds .positive d.value u := by
  unfold value
  by_cases hpos : 0 ≤ d.exponent
  · obtain ⟨k, hk⟩ := Int.eq_ofNat_of_zero_le hpos
    have hten : 0 < 10 ^ k := Nat.pow_pos (Nat.succ_pos 9)
    have hrounds := rounds_round (e := 0) .positive (Nat.mul_pos h hten)
    rw [zpow_zero, mul_one, Nat.cast_mul, Nat.cast_pow, Nat.cast_ofNat] at hrounds
    rw [hk, zpow_natCast]
    exact ⟨_, hrounds⟩
  · obtain ⟨k, hk⟩ : ∃ k : Nat, d.exponent = -k := ⟨d.exponent.natAbs, by omega⟩
    have hten : 0 < 10 ^ k := Nat.pow_pos (Nat.succ_pos 9)
    have hrounds := rounds_div (e := 0) (f := 0) .positive .positive h hten
    rw [zpow_zero, mul_one, mul_one, div_eq_mul_inv, Nat.cast_pow, Nat.cast_ofNat] at hrounds
    rw [hk, zpow_neg, zpow_natCast]
    exact ⟨_, hrounds⟩

theorem ofScientific_zero (negative : Bool) (k : Nat) :
    Float.ofScientific 0 negative k = assemble (.zero .positive) := by
  unfold Float.ofScientific
  split
  next hfast =>
    have hsmall : ∀ k ≤ 22, ∀ negative, Float.ofScientific 0 negative k =
        assemble (.zero .positive) := by decide +kernel
    have hzero := hsmall k hfast.2 negative
    unfold Float.ofScientific at hzero
    rwa [dif_pos hfast] at hzero
  next => rfl

theorem toFloat_of_digits_eq_zero (h : d.digits = 0) : d.toFloat = assemble (.zero .positive) := by
  unfold toFloat
  rw [h]
  dsimp only
  rw [ofScientific_zero, ofScientific_zero, ite_self]

/-! ## Numbers outside the range -/

/-- The exponent that is used instead is the same, or both are too large, or both too small. -/
theorem effectiveExponent_cases (d : Decimal) :
    d.effectiveExponent = d.exponent ∨ 400 < d.exponent ∧ d.effectiveExponent = 400 ∨
      d.exponent < -((toString d.digits).length + 400) ∧
        d.effectiveExponent = -((toString d.digits).length + 400) := by
  unfold effectiveExponent
  omega

theorem digits_lt (d : Decimal) : d.digits < 10 ^ (toString d.digits).length := by
  rw [Nat.toString_eq_ofList_toDigits, String.length_ofList]
  exact (Nat.length_toDigits_le_iff (by norm_num) Nat.length_toDigits_pos).1 le_rfl

theorem two_pow_le_ten_pow : (2 : ℚ) ^ 1075 ≤ 10 ^ 400 :=
  calc (2 : ℚ) ^ 1075 ≤ 2 ^ (3 * 400) := pow_le_pow_right₀ one_le_two (by norm_num)
    _ = (2 ^ 3) ^ 400 := pow_mul 2 3 400
    _ ≤ 10 ^ 400 := pow_le_pow_left₀ (by norm_num) (by norm_num) 400

theorem large_of_exponent (hd : 0 < d.digits) {k : Int} (hk : 400 ≤ k) :
    (2 : ℚ) ^ (1025 : Int) ≤ d.digits * 10 ^ k := by
  have hten : (0 : ℚ) < 10 ^ k := zpow_pos (by norm_num) k
  have hdigits : (1 : ℚ) ≤ d.digits := by exact_mod_cast hd
  calc (2 : ℚ) ^ (1025 : Int) ≤ 2 ^ (1075 : Int) := zpow_le_zpow_right₀ one_le_two (by norm_num)
    _ ≤ 10 ^ (400 : Int) := two_pow_le_ten_pow
    _ ≤ 10 ^ k := zpow_le_zpow_right₀ (by norm_num) hk
    _ ≤ d.digits * 10 ^ k := le_mul_of_one_le_left hten.le hdigits

theorem small_of_exponent {k : Int} (hk : k ≤ -((toString d.digits).length + 400)) :
    d.digits * (10 : ℚ) ^ k < 2 ^ (-1075 : Int) := by
  have hten : (0 : ℚ) < 10 ^ k := zpow_pos (by norm_num) k
  have hdigits : (d.digits : ℚ) < 10 ^ ((toString d.digits).length : Int) := by
    exact_mod_cast d.digits_lt
  calc d.digits * (10 : ℚ) ^ k < 10 ^ ((toString d.digits).length : Int) * 10 ^ k :=
        mul_lt_mul_of_pos_right hdigits hten
    _ = 10 ^ ((toString d.digits).length + k) := (zpow_add₀ (by norm_num) _ _).symm
    _ ≤ 10 ^ (-400 : Int) := zpow_le_zpow_right₀ (by norm_num) (by omega)
    _ ≤ 2 ^ (-1075 : Int) := inv_anti₀ (by positivity) two_pow_le_ten_pow

theorem toFloat_of_effective {u : UnpackedFloat} (hd : 0 < d.digits)
    (h : Rounds .positive (d.digits * 10 ^ d.effectiveExponent) u) : d.toFloat = assemble u := by
  unfold toFloat
  dsimp only
  split
  next hneg =>
    obtain ⟨k, hk⟩ : ∃ k : Nat, d.effectiveExponent = -k := ⟨d.effectiveExponent.natAbs, by omega⟩
    rw [hk] at h ⊢
    rw [Int.natAbs_neg, Int.natAbs_natCast]
    exact ofScientific_eq hd (by rwa [if_pos rfl])
  next hpos =>
    obtain ⟨k, hk⟩ := Int.eq_ofNat_of_zero_le (not_lt.1 hpos)
    rw [hk] at h ⊢
    rw [Int.natAbs_natCast]
    exact ofScientific_eq hd (by rwa [if_neg Bool.false_ne_true])

theorem toFloat_eq {u : UnpackedFloat} (hd : 0 < d.digits) (h : Rounds .positive d.value u) :
    d.toFloat = assemble u := by
  unfold value at h
  have hpos : 0 < (⟨d.digits, d.effectiveExponent⟩ : Decimal).digits := hd
  obtain ⟨v, hv⟩ := exists_rounds hpos
  unfold value at hv
  rw [toFloat_of_effective hd hv]
  rcases d.effectiveExponent_cases with heq | ⟨hlarge, heq⟩ | ⟨hsmall, heq⟩
  · rw [heq] at hv
    rw [hv.eq h]
  · rw [heq] at hv
    rw [assemble_of_large (large_of_exponent hd le_rfl) hv,
      assemble_of_large (large_of_exponent hd hlarge.le) h]
  · rw [heq] at hv
    rw [eq_zero_of_small (small_of_exponent le_rfl) hv,
      eq_zero_of_small (small_of_exponent hsmall.le) h]

/-- Decimals of the same value are rounded to the same number. -/
theorem toFloat_of_value_eq (hd : 0 < d.digits) (h : d.value = d'.value) :
    d.toFloat = d'.toFloat := by
  have hd' : 0 < d'.digits := value_pos_iff.1 (h ▸ value_pos_iff.2 hd)
  obtain ⟨u, hu⟩ := exists_rounds hd
  rw [toFloat_eq hd hu, toFloat_eq hd' (h ▸ hu)]

/-- A decimal is rounded to a number that has its value. -/
theorem toFloat_of_value (h : CanonicalPair m e) (hvalue : d.value = m * 2 ^ e) :
    d.toFloat = assemble (.finite .positive m e h.pos) := by
  have hd : 0 < d.digits := by
    have hm : (0 : ℚ) < m := by exact_mod_cast h.pos
    rw [← value_pos_iff, hvalue]
    exact mul_pos hm (zpow_pos two_pos e)
  exact toFloat_eq hd (hvalue ▸ h.rounds .positive)

/-- What a decimal is read as is a number, and its sign is positive. -/
theorem exists_fields_toFloat (d : Decimal) :
    ∃ exponent mantissa, (exponent = -1#11 → mantissa = 0#52) ∧
      Fields .positive exponent mantissa (parts d.toFloat) := by
  rcases Nat.eq_zero_or_pos d.digits with hd | hd
  · rw [toFloat_of_digits_eq_zero hd, parts_assemble (canonical_zero _)]
    exact ⟨0#11, 0#52, fun _ => rfl, .zero rfl rfl⟩
  · obtain ⟨u, hu⟩ := exists_rounds hd
    rw [toFloat_eq hd hu]
    obtain ⟨m, e, acc, -, rfl⟩ := hu
    rcases roundWithAccuracy_cases .positive m e acc with hzero | ⟨m', e', hm, hfinite⟩
    · rw [hzero, parts_assemble (canonical_zero _)]
      exact ⟨0#11, 0#52, fun _ => rfl, .zero rfl rfl⟩
    · rw [hfinite]
      exact exists_fields_finite _ _ _

/-! ## The shortest decimal -/

theorem value_ofBinary (m : Nat) (e : Int) : (ofBinary m e).value = m * 2 ^ e := by
  unfold ofBinary value
  split
  next hneg =>
    obtain ⟨k, rfl⟩ : ∃ k : Nat, e = -k := ⟨e.natAbs, by omega⟩
    have hpow : Nat.pow 5 (-(k : Int)).natAbs = 5 ^ k := by rw [Int.natAbs_neg, Int.natAbs_natCast]; rfl
    have hten : (10 : ℚ) ^ k = 5 ^ k * 2 ^ k := by rw [← mul_pow]; norm_num
    rw [hpow, zpow_neg, zpow_neg, zpow_natCast, zpow_natCast, hten]
    push_cast
    field_simp
  next hpos =>
    obtain ⟨k, rfl⟩ := Int.eq_ofNat_of_zero_le (not_lt.1 hpos)
    have hpow : Nat.pow 2 (k : Int).natAbs = 2 ^ k := by rw [Int.natAbs_natCast]; rfl
    rw [hpow, zpow_natCast, zpow_zero, mul_one]
    push_cast
    rfl

/-- Zeros at the end of the digits count in the exponent. -/
theorem value_dropZeros (n : Nat) (k : Int) :
    (dropZeros n k).value = (⟨n, k⟩ : Decimal).value := by
  induction n, k using dropZeros.induct with
  | case1 n k h ih =>
    obtain ⟨a, rfl⟩ := Nat.dvd_of_mod_eq_zero h.2
    rw [dropZeros, dif_pos h, ih]
    unfold value
    rw [Nat.mul_div_cancel_left a (by norm_num), zpow_add_one₀ (by norm_num)]
    push_cast
    ring
  | case2 n k h => rw [dropZeros, dif_neg h]

/-- The decimal that is found reads back as the number. -/
theorem toFloat_of_neighbour? {tie : Tie} {x : Float} {num den : Nat}
    (h : neighbour? tie x num den e = some d) : (d.toFloat == x) = true := by
  unfold neighbour? at h
  generalize scaled num den (-e) = fraction at h
  exact List.find?_some (p := fun d : Decimal => d.toFloat == x) h

theorem toFloat_shortest (tie : Tie) {x : Float} (h : CanonicalPair m e)
    (hx : parts x = .finite .positive m e h.pos) :
    0 < (shortest tie x m e).digits ∧ (shortest tie x m e).toFloat = x := by
  have hexact : (ofBinary m e).toFloat = x := by
    rw [toFloat_of_value h (value_ofBinary m e), ← hx, assemble_parts]
  have hnonzero : Arithmetic.isZero x = false := by
    rw [← Bool.not_eq_true, isZero_iff]
    rintro ⟨s, hs⟩
    cases hx.symm.trans hs
  -- the number is not zero, so that it is equal to what it is the same as
  have heq {d : Decimal} (hd : (d.toFloat == x) = true) : d.toFloat = x :=
    (alike_of_same hd).resolve_right fun hzero => by
      rw [hnonzero] at hzero
      cases hzero.2
  have hpos {d : Decimal} (hd : d.toFloat = x) : 0 < d.digits := by
    rw [Nat.pos_iff_ne_zero]
    intro hdigits
    rw [← hd, toFloat_of_digits_eq_zero hdigits, isZero_assemble] at hnonzero
    cases hnonzero
  have hfound : ∃ d : Decimal, d.toFloat = x ∧
      shortest tie x m e = dropZeros d.digits d.exponent := by
    unfold shortest
    generalize (if e < 0 then (m, Nat.pow 2 e.natAbs) else (m * Nat.pow 2 e.natAbs, 1)) = fraction
    obtain ⟨num, den⟩ := fraction
    dsimp only
    cases hfind : (List.range 17).findSome? fun n =>
        neighbour? tie x num den (magnitude num den - (n + 1 : Nat)) with
    | none => exact ⟨_, hexact, rfl⟩
    | some d =>
      obtain ⟨n, -, hn⟩ := List.exists_of_findSome?_eq_some hfind
      exact ⟨d, heq (toFloat_of_neighbour? hn), rfl⟩
  obtain ⟨d, hd, hshortest⟩ := hfound
  have hvalue := value_dropZeros d.digits d.exponent
  rw [hshortest]
  refine ⟨value_pos_iff.1 ?_, ?_⟩
  · rw [hvalue]
    exact value_pos_iff.2 (hpos hd)
  · rw [← toFloat_of_value_eq (hpos hd) hvalue.symm, hd]

end LineBasic.Decimal
