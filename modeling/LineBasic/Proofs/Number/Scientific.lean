import Mathlib.Algebra.Order.Field.Power
import Mathlib.Tactic.FieldSimp
import Mathlib.Tactic.Positivity
import LineBasic.Proofs.Number.Rounding
import LineBasic.Proofs.Number.ZeroSigns

/-!
# Numbers in scientific notation

Products, quotients and conversions of integers are rounded once, from their exact value. So the
number that is made of digits and a power of ten is the one nearest to that value, whichever way it
is computed (`Number.ofScientific_eq`): by the table of exact powers, by the model, or not at all
where it is too large or too small. Integers of 53 bits are exact (`Number.integer?_ofInt`).
-/

namespace LineBasic.Number

open Float.Model UnpackedFloat

variable {m n : Nat} {e f : Int} {w : ℚ}

/-! ## Products and quotients -/

theorem rounds_mul (s₁ s₂ : Sign) (hm : 0 < m) (hn : 0 < n) (hbits : 2 ^ 52 ≤ m * n) :
    Rounds (s₁ * s₂) (m * 2 ^ e * (n * 2 ^ f))
      (UnpackedFloat.mul Format.binary64 (.finite s₁ m e hm) (.finite s₂ n f hn)) := by
  have hpos : 0 < m * n := Nat.mul_pos hm hn
  have hlog : 52 ≤ (m * n).log2 := (Nat.le_log2 hpos.ne').2 hbits
  have hvalue : (m : ℚ) * 2 ^ e * (n * 2 ^ f) = (m * n : Nat) * 2 ^ (e + f) := by
    rw [zpow_add₀ two_ne_zero]
    push_cast
    ring
  rw [hvalue]
  refine ⟨m * n, e + f, .exact, describes_exact hpos ?_, rfl⟩
  rw [targetExponent_eq, totalExponent]
  omega

theorem approximates_fraction (a : Nat) {b : Nat} (hb : 0 < b) :
    Approximates (.ofMantissaAndAccuracy (a / b) (accuracyOfFraction (a % b) b)) (a / b : ℚ) := by
  have hb' : (0 : ℚ) < b := by exact_mod_cast hb
  have ha : (a : ℚ) = b * (a / b : Nat) + (a % b : Nat) := by
    exact_mod_cast (Nat.div_add_mod a b).symm
  have hq : (a / b : ℚ) = (a / b : Nat) + (a % b : Nat) / b := by
    rw [div_eq_iff hb'.ne', add_mul, div_mul_cancel₀ _ hb'.ne', mul_comm, ← ha]
  have hlt : ((a % b : Nat) : ℚ) / b < 1 := by
    rw [div_lt_one hb']
    exact_mod_cast Nat.mod_lt a hb
  have hhalf : ((a % b : Nat) : ℚ) / b < 1 / 2 ↔ 2 * (a % b) < b := by
    rw [div_lt_div_iff₀ hb' two_pos, one_mul, mul_comm]
    exact_mod_cast Iff.rfl
  have hhalf' : 1 / 2 < ((a % b : Nat) : ℚ) / b ↔ b < 2 * (a % b) := by
    rw [div_lt_div_iff₀ two_pos hb', one_mul, mul_comm ((a % b : Nat) : ℚ)]
    exact_mod_cast Iff.rfl
  rw [hq]
  unfold accuracyOfFraction
  by_cases hzero : a % b = 0
  · rw [if_pos hzero, hzero]
    simp [ExtendedMantissa.ofMantissaAndAccuracy, Approximates]
  · have hpos : (0 : ℚ) < (a % b : Nat) / b :=
      div_pos (by exact_mod_cast Nat.pos_of_ne_zero hzero) hb'
    rw [if_neg hzero]
    cases hcompare : compare (2 * (a % b)) b with
    | lt =>
      have := hhalf.2 (compare_lt_iff_lt.1 hcompare)
      simp only [ExtendedMantissa.ofMantissaAndAccuracy, Approximates]
      constructor <;> linarith
    | eq =>
      have heq := compare_eq_iff_eq.1 hcompare
      have hle := mt hhalf.1 (by omega)
      have hge := mt hhalf'.1 (by omega)
      simp only [ExtendedMantissa.ofMantissaAndAccuracy, Approximates]
      linarith
    | gt =>
      have := hhalf'.2 (compare_gt_iff_gt.1 hcompare)
      simp only [ExtendedMantissa.ofMantissaAndAccuracy, Approximates]
      constructor <;> linarith

theorem zpow_log2_le (hm : 0 < m) (e : Int) : (2 : ℚ) ^ (m.log2 + e) ≤ m * 2 ^ e := by
  have hle : (2 : ℚ) ^ m.log2 ≤ m := by exact_mod_cast Nat.log2_self_le hm.ne'
  rw [zpow_add₀ two_ne_zero, zpow_natCast]
  exact mul_le_mul_of_nonneg_right hle (zpow_pos two_pos e).le

theorem lt_zpow_log2 (m : Nat) (e : Int) : (m : ℚ) * 2 ^ e < 2 ^ (m.log2 + 1 + e) := by
  have hlt : (m : ℚ) < 2 ^ (m.log2 + 1) := by exact_mod_cast Nat.lt_log2_self (n := m)
  rw [zpow_add₀ two_ne_zero]
  exact mul_lt_mul_of_pos_right (by exact_mod_cast hlt) (zpow_pos two_pos e)

theorem rounds_div (s₁ s₂ : Sign) (hm : 0 < m) (hn : 0 < n) :
    Rounds (s₁ / s₂) (m * 2 ^ e / (n * 2 ^ f))
      (UnpackedFloat.div Format.binary64 (.finite s₁ m e hm) (.finite s₂ n f hn)) := by
  have hm' : (0 : ℚ) < m := by exact_mod_cast hm
  have hn' : (0 : ℚ) < n := by exact_mod_cast hn
  have hpow : (0 : ℚ) < 2 ^ f := zpow_pos two_pos f
  -- `d` is the exponent of the quotient, give or take one bit
  obtain ⟨d, hd⟩ : ∃ d, d = totalExponent m e - totalExponent n f := ⟨_, rfl⟩
  obtain ⟨t, ht⟩ : ∃ t, t = min (e - f) (max (d - 53) (-1074)) := ⟨_, rfl⟩
  obtain ⟨k, hk⟩ : ∃ k : Nat, (k : Int) = e - f - t :=
    ⟨(e - f - t).toNat, Int.toNat_of_nonneg (by omega)⟩
  have hcore : divCore Format.binary64 m e n f =
      (m * 2 ^ k / n, t, accuracyOfFraction (m * 2 ^ k % n) n) := by
    unfold divCore
    rw [targetExponent_eq, ← hd, ← ht]
    simp only [← hk, Int.toNat_natCast, Nat.shiftLeft_eq]
  unfold totalExponent at hd
  have hdiv := congrArg (fun core =>
    roundWithAccuracy Format.binary64 (s₁ / s₂) core.1 core.2.1 core.2.2) hcore
  refine ⟨m * 2 ^ k / n, t, accuracyOfFraction (m * 2 ^ k % n) n, ⟨by positivity, ?_, ?_, ?_⟩, hdiv⟩
  · have hvalue : (m * 2 ^ e / (n * 2 ^ f) / 2 ^ t : ℚ) = ((m * 2 ^ k : Nat) : ℚ) / n := by
      have hexp : (2 : ℚ) ^ e = 2 ^ k * 2 ^ f * 2 ^ t := by
        rw [← zpow_natCast, ← zpow_add₀ two_ne_zero, ← zpow_add₀ two_ne_zero]
        congr 1
        omega
      have hpow : (0 : ℚ) < 2 ^ t := zpow_pos two_pos t
      rw [hexp]
      push_cast
      field_simp
    rw [hvalue]
    exact approximates_fraction _ hn
  · by_cases hleast : t ≤ -1074
    · exact .inr hleast
    · refine .inl (Nat.div_pos ?_ hn)
      have hlow := Nat.log2_self_le hm.ne'
      have hhigh := Nat.lt_log2_self (n := n)
      calc n ≤ 2 ^ (n.log2 + 1) := hhigh.le
        _ ≤ 2 ^ (m.log2 + k) := Nat.pow_le_pow_right Nat.two_pos (by omega)
        _ = 2 ^ m.log2 * 2 ^ k := Nat.pow_add ..
        _ ≤ m * 2 ^ k := Nat.mul_le_mul_right _ hlow
  · have hlog : d - 1 ≤ Int.log 2 ((m * 2 ^ e / (n * 2 ^ f) : ℚ)) := by
      rw [← Int.zpow_le_iff_le_log Nat.one_lt_two (by positivity), le_div_iff₀ (by positivity)]
      push_cast
      calc (2 : ℚ) ^ (d - 1) * (n * 2 ^ f) ≤ 2 ^ (d - 1) * 2 ^ (n.log2 + 1 + f) :=
            mul_le_mul_of_nonneg_left (lt_zpow_log2 n f).le (zpow_pos two_pos _).le
        _ = 2 ^ (m.log2 + e) := by
            rw [← zpow_add₀ two_ne_zero]
            congr 1
            omega
        _ ≤ m * 2 ^ e := zpow_log2_le hm e
    unfold target
    omega

/-! ## Integers -/

theorem rounds_round (s : Sign) (hm : 0 < m) :
    Rounds s (m * 2 ^ e) (UnpackedFloat.round Format.binary64 s m e) := by
  obtain ⟨t, ht⟩ : ∃ t, t = Format.binary64.targetExponent (totalExponent m e) := ⟨_, rfl⟩
  have hshift : 0 < m <<< (e - t).toNat := Nat.shiftLeft_pos_iff.2 hm
  have hvalue : (m : ℚ) * 2 ^ e = (m <<< (e - t).toNat : Nat) * 2 ^ (e - (e - t).toNat) := by
    rw [Nat.shiftLeft_eq, Nat.cast_mul, Nat.cast_pow, Nat.cast_ofNat, mul_assoc, ← zpow_natCast,
      ← zpow_add₀ two_ne_zero]
    congr 2
    omega
  rw [hvalue]
  refine ⟨_, _, .exact, describes_exact hshift ?_, by rw [UnpackedFloat.round, decreaseExponent, ← ht]⟩
  have hlog : (m <<< (e - t).toNat).log2 = m.log2 + (e - t).toNat := by
    rw [Nat.shiftLeft_eq]
    refine log2_eq ?_ ?_
    · rw [Nat.pow_add]
      exact Nat.mul_le_mul_right _ (Nat.log2_self_le hm.ne')
    · rw [Nat.add_right_comm, Nat.pow_add]
      exact Nat.mul_lt_mul_of_pos_right Nat.lt_log2_self (Nat.two_pow_pos _)
  rw [targetExponent_eq, totalExponent] at ht ⊢
  rw [hlog]
  push_cast
  omega

/-- Integers of at most 53 bits are values of the format. -/
theorem exists_canonicalPair {n : Nat} (hn : 0 < n) (hlt : n < 2 ^ 53) :
    ∃ m e, CanonicalPair m e ∧ 2 ^ 52 ≤ m ∧ (m : ℚ) * 2 ^ e = n ∧
      ∃ k : Nat, e = -k ∧ m = n * 2 ^ k := by
  have hlog : n.log2 < 53 := (Nat.log2_lt hn.ne').2 hlt
  obtain ⟨k, hk⟩ : ∃ k, n.log2 + k = 52 := ⟨52 - n.log2, by omega⟩
  have hpow : 0 < 2 ^ k := Nat.two_pow_pos k
  have hlow : 2 ^ 52 ≤ n * 2 ^ k := by
    rw [← hk, Nat.pow_add]
    exact Nat.mul_le_mul_right _ (Nat.log2_self_le hn.ne')
  have hhigh : n * 2 ^ k < 2 ^ 53 := by
    rw [show 53 = n.log2 + 1 + k by omega, Nat.pow_add]
    exact Nat.mul_lt_mul_of_pos_right Nat.lt_log2_self hpow
  refine ⟨n * 2 ^ k, -k, ⟨Nat.mul_pos hn hpow, hhigh, by omega, by omega, .inl hlow⟩, hlow, ?_,
    k, rfl, rfl⟩
  rw [Nat.cast_mul, Nat.cast_pow, Nat.cast_ofNat, zpow_neg, zpow_natCast, mul_assoc,
    mul_inv_cancel₀ (pow_ne_zero k two_ne_zero), mul_one]

/-- A rounded value that is canonical is the value itself. -/
theorem Rounds.eq_finite {s : Sign} {u : UnpackedFloat} (h : CanonicalPair m e)
    (hu : Rounds s w u) (hw : (m : ℚ) * 2 ^ e = w) : u = .finite s m e h.pos :=
  hu.eq (hw ▸ h.rounds s)

theorem parts_toFloat {n : Nat} (h : CanonicalPair m e) (hn : n < 2 ^ 53)
    (hvalue : (m : ℚ) * 2 ^ e = n) : parts n.toUInt64.toFloat = .finite .positive m e h.pos := by
  have hpos : 0 < n := by
    have hm : (0 : ℚ) < m := by exact_mod_cast h.pos
    have hn : (0 : ℚ) < n := hvalue ▸ mul_pos hm (zpow_pos two_pos e)
    exact_mod_cast hn
  have hword : n.toUInt64.toNat = n := UInt64.toNat_ofNat_of_lt' (hn.trans (by decide))
  have hround : UnpackedFloat.ofUInt64 Format.binary64 n.toUInt64 =
      UnpackedFloat.round Format.binary64 .positive n 0 := by
    have hcompare : compare (n : Int) 0 = .gt := compare_gt_iff_gt.2 (by omega)
    unfold UnpackedFloat.ofUInt64 UnpackedFloat.ofNat UnpackedFloat.ofInt UnpackedFloat.normalize
    rw [hword, hcompare]
    rfl
  have hrounds := rounds_round (e := 0) .positive hpos
  rw [zpow_zero, mul_one] at hrounds
  have hassemble : n.toUInt64.toFloat =
      assemble (UnpackedFloat.ofUInt64 Format.binary64 n.toUInt64) := rfl
  rw [hassemble, hround, hrounds.eq_finite h hvalue]
  exact parts_assemble h

/-! ## Values that are too large or too small -/

/-- Beyond the largest exponent the packed form is infinite. -/
theorem assemble_of_exponent (s : Sign) (hm : 0 < m) (he : 972 ≤ e) :
    assemble (.finite s m e hm) = assemble (.infinity s) := by
  have hbias : (Format.binary64.exponentBias : Int) = 1023 := rfl
  have hpack : UnpackedFloat.pack Format.binary64 (.finite s m e hm) =
      UnpackedFloat.pack Format.binary64 (.infinity s) := by
    have hbiased : 2 ^ 11 ≤ (e + Format.binary64.exponentBias + (52 : Nat)).toNat + 1 := by omega
    unfold UnpackedFloat.pack
    exact if_pos hbiased
  exact assemble_congr hpack

theorem Describes.le_mantissa {acc : Accuracy} (h : Describes m e acc w)
    (hw : 2 ^ (-1022 : Int) ≤ w) :
    2 ^ 52 ≤ (shiftToTargetExponent Format.binary64 m e acc).1.mantissa := by
  have hlog : -1022 ≤ Int.log 2 w :=
    (Int.zpow_le_iff_le_log Nat.one_lt_two h.pos).1 (by exact_mod_cast hw)
  have htarget : target w = Int.log 2 w - 52 := max_eq_left (by omega)
  have hlow : (2 : ℚ) ^ 52 ≤ w / 2 ^ target w := by
    have hself : ((2 : Nat) : ℚ) ^ Int.log 2 w ≤ w := Int.zpow_log_le_self Nat.one_lt_two h.pos
    rw [le_div_iff₀ (zpow_pos two_pos _), htarget, ← zpow_natCast, ← zpow_add₀ two_ne_zero]
    have hexp : ((52 : Nat) : Int) + (Int.log 2 w - 52) = Int.log 2 w := by omega
    rw [hexp]
    exact_mod_cast hself
  have hlt : (2 : ℚ) ^ 52 < (shiftToTargetExponent Format.binary64 m e acc).1.mantissa + 1 :=
    hlow.trans_lt h.shift.1.lt
  have hlt : 2 ^ 52 < (shiftToTargetExponent Format.binary64 m e acc).1.mantissa + 1 := by
    exact_mod_cast hlt
  omega

theorem mantissa_le_roundedMantissa (em : ExtendedMantissa) : em.mantissa ≤ em.roundedMantissa := by
  obtain ⟨m, _ | _, _ | _⟩ := em
  · exact le_rfl
  · exact le_rfl
  · exact Nat.le_add_right m (m % 2)
  · exact Nat.le_succ m

theorem assemble_of_large {s : Sign} {u : UnpackedFloat} (hw : 2 ^ (1025 : Int) ≤ w)
    (h : Rounds s w u) : assemble u = assemble (.infinity s) := by
  obtain ⟨m, e, acc, h, rfl⟩ := h
  have hlog : 1025 ≤ Int.log 2 w :=
    (Int.zpow_le_iff_le_log Nat.one_lt_two h.pos).1 (by exact_mod_cast hw)
  have hnormal {w : ℚ} (hw : 2 ^ (1025 : Int) ≤ w) : 2 ^ (-1022 : Int) ≤ w :=
    (zpow_le_zpow_right₀ one_le_two (by norm_num)).trans hw
  have hmantissa := h.le_mantissa (hnormal hw)
  have hexponent := h.shift.2
  unfold roundWithAccuracy
  generalize shiftToTargetExponent Format.binary64 m e acc = first at *
  obtain ⟨em, t⟩ := first
  dsimp only at hmantissa hexponent
  have hrounded := mantissa_le_roundedMantissa em
  have htarget : 973 ≤ t := by
    rw [hexponent, target]
    omega
  -- the rounded mantissa is a value of its own, to which the second shift is applied
  have hlog2 : 52 ≤ em.roundedMantissa.log2 := (Nat.le_log2 (by omega)).2 (by omega)
  have hfine : t ≤ Format.binary64.targetExponent (totalExponent em.roundedMantissa t) := by
    rw [targetExponent_eq, totalExponent]
    omega
  have hdescribes := describes_exact (by omega) hfine
  have hlarge : (2 : ℚ) ^ (1025 : Int) ≤ em.roundedMantissa * 2 ^ t := by
    refine le_trans ?_ (zpow_log2_le (by omega) t)
    exact zpow_le_zpow_right₀ one_le_two (by omega)
  have hmantissa := hdescribes.le_mantissa (hnormal hlarge)
  have hexponent := hdescribes.shift.2
  have hle := hdescribes.fine
  have hne : ¬ (shiftToTargetExponent Format.binary64 em.roundedMantissa t .exact).1.mantissa = 0 := by
    omega
  exact (congrArg assemble (dif_neg hne)).trans (assemble_of_exponent s _ (by omega))

theorem Approximates.roundedMantissa_eq_zero {em : ExtendedMantissa} {q : ℚ}
    (h : Approximates em q) (hq : q < 1 / 2) : em.roundedMantissa = 0 := by
  have hm : em.mantissa = 0 := by
    have hlt : (em.mantissa : ℚ) < 1 := h.le.trans_lt (hq.trans (by norm_num))
    have hlt : em.mantissa < 1 := by exact_mod_cast hlt
    omega
  obtain ⟨m, round, sticky⟩ := em
  obtain rfl : m = 0 := hm
  cases round <;> cases sticky <;> simp only [Approximates, Nat.cast_zero] at h
  · rfl
  · rfl
  · linarith
  · linarith

theorem eq_zero_of_small {s : Sign} {u : UnpackedFloat} (hw : w < 2 ^ (-1075 : Int))
    (h : Rounds s w u) : u = .zero s := by
  obtain ⟨m, e, acc, h, rfl⟩ := h
  have hlog : Int.log 2 w < -1075 :=
    (Int.lt_zpow_iff_log_lt Nat.one_lt_two h.pos).1 (by exact_mod_cast hw)
  have htarget : target w = -1074 := max_eq_right (by omega)
  have happroximates := h.shift.1
  have hq : w / 2 ^ target w < 1 / 2 := by
    rw [htarget, div_lt_iff₀ (zpow_pos two_pos _)]
    refine hw.trans_eq ?_
    rw [show (-1074 : Int) = -1075 + 1 by norm_num, zpow_add_one₀ two_ne_zero]
    ring
  unfold roundWithAccuracy
  generalize shiftToTargetExponent Format.binary64 m e acc = first at *
  obtain ⟨em, t⟩ := first
  dsimp only at happroximates ⊢
  rw [happroximates.roundedMantissa_eq_zero hq]
  have hfinal : (shiftToTargetExponent Format.binary64 0 t .exact).1.mantissa = 0 := by
    have hzero : Approximates (.ofMantissaAndAccuracy 0 .exact) 0 := Nat.cast_zero.symm
    have hle := (hzero.shiftRight
      (Format.binary64.targetExponent (totalExponent 0 t) - t).toNat).le
    rw [zero_div] at hle
    have hle : (shiftToTargetExponent Format.binary64 0 t .exact).1.mantissa ≤ 0 := by
      exact_mod_cast hle
    omega
  exact dif_pos hfinal

/-! ## Digits and powers of ten -/

/-- The parts of `10 ^ k`, with all bits of the mantissa in use. -/
def isPowerOfTen (k : Nat) : UnpackedFloat → Bool
  | .finite .positive m e _ => decide (2 ^ 52 ≤ m) &&
    if e < 0 then m == 10 ^ k * 2 ^ e.natAbs else m * 2 ^ e.natAbs == 10 ^ k
  | _ => false

theorem isPowerOfTen_table (k : Nat) (h : k < Float.exactlyRepresentablePowersOfTen.size) :
    isPowerOfTen k (parts Float.exactlyRepresentablePowersOfTen[k]) = true := by
  revert k
  decide +kernel

theorem exists_of_isPowerOfTen {k : Nat} {u : UnpackedFloat} (h : isPowerOfTen k u = true) :
    ∃ m e, ∃ hm : 0 < m, u = .finite .positive m e hm ∧ 2 ^ 52 ≤ m ∧ (m : ℚ) * 2 ^ e = 10 ^ k := by
  rcases u with _ | _ | _ | ⟨_ | _, m, e, hm⟩
  case finite.positive =>
    obtain ⟨hbits, hvalue⟩ := Bool.and_eq_true_iff.1 h
    refine ⟨m, e, hm, rfl, of_decide_eq_true hbits, ?_⟩
    split at hvalue
    next hneg =>
      obtain ⟨j, rfl⟩ : ∃ j : Nat, e = -j := ⟨e.natAbs, by omega⟩
      rw [Int.natAbs_neg, Int.natAbs_natCast, beq_iff_eq] at hvalue
      rw [hvalue, zpow_neg, zpow_natCast, Nat.cast_mul, Nat.cast_pow, Nat.cast_pow,
        Nat.cast_ofNat, Nat.cast_ofNat, mul_inv_cancel_right₀ (pow_ne_zero j two_ne_zero)]
    next hpos =>
      obtain ⟨j, rfl⟩ := Int.eq_ofNat_of_zero_le (not_lt.1 hpos)
      rw [Int.natAbs_natCast, beq_iff_eq] at hvalue
      rw [zpow_natCast]
      exact_mod_cast hvalue
  all_goals exact absurd h Bool.false_ne_true

theorem le_mul_zpow_of_large {n : Nat} (hn : 0 < n) (he : 2 ^ 11 < e) :
    (2 : ℚ) ^ (1025 : Int) ≤ n * 10 ^ e := by
  have hn' : (1 : ℚ) ≤ n := by exact_mod_cast hn
  calc (2 : ℚ) ^ (1025 : Int) ≤ 10 ^ (1025 : Int) :=
        zpow_le_zpow_left₀ (by norm_num) (by norm_num) (by norm_num)
    _ ≤ 10 ^ e := zpow_le_zpow_right₀ (by norm_num) (by omega)
    _ ≤ n * 10 ^ e := le_mul_of_one_le_left (zpow_pos (by norm_num) e).le hn'

theorem mul_zpow_lt_of_small {n : Nat} (he : e < -((2 ^ 11 : Int) + n.log2)) :
    (n : ℚ) * 10 ^ e < 2 ^ (-1075 : Int) := by
  have hlog : (n : ℚ) < 2 ^ ((n.log2 + 1 : Nat) : Int) := by
    exact_mod_cast Nat.lt_log2_self (n := n)
  -- a negative power of ten is below that of two
  have hten : (10 : ℚ) ^ e ≤ 2 ^ e := by
    obtain ⟨k, rfl⟩ : ∃ k : Nat, e = -k := ⟨e.natAbs, by omega⟩
    rw [zpow_neg, zpow_neg, zpow_natCast, zpow_natCast]
    exact inv_anti₀ (by positivity) (pow_le_pow_left₀ (by norm_num) (by norm_num) k)
  calc (n : ℚ) * 10 ^ e < 2 ^ ((n.log2 + 1 : Nat) : Int) * 10 ^ e :=
        mul_lt_mul_of_pos_right hlog (zpow_pos (by norm_num) e)
    _ ≤ 2 ^ ((n.log2 + 1 : Nat) : Int) * 2 ^ e :=
        mul_le_mul_of_nonneg_left hten (by positivity)
    _ = 2 ^ (((n.log2 + 1 : Nat) : Int) + e) := (zpow_add₀ two_ne_zero _ _).symm
    _ ≤ 2 ^ (-1075 : Int) := zpow_le_zpow_right₀ one_le_two (by omega)

theorem rounds_wholePower {n : Nat} (hn : 0 < n) (k : Nat) :
    Rounds .positive (n * 10 ^ (k : Int))
      (.mul Format.binary64 (.finite .positive (n <<< 53) (-53) (Nat.shiftLeft_pos_iff.2 hn))
        (.finite .positive (10 ^ k) 0 (Nat.pow_pos (Nat.succ_pos 9)))) := by
  have hrounds := rounds_mul (m := n <<< 53) (n := 10 ^ k) (e := -53) (f := 0)
    .positive .positive (Nat.shiftLeft_pos_iff.2 hn) (by positivity) (by
      rw [Nat.shiftLeft_eq]
      have hpow : 0 < 10 ^ k := by positivity
      nlinarith)
  have hvalue : ((n <<< 53 : Nat) : ℚ) * 2 ^ (-53 : Int) * ((10 ^ k : Nat) * 2 ^ (0 : Int)) =
      n * 10 ^ (k : Int) := by
    rw [Nat.shiftLeft_eq, zpow_natCast, zpow_neg, Nat.cast_mul, Nat.cast_pow, Nat.cast_pow,
      Nat.cast_ofNat, Nat.cast_ofNat, zpow_zero, mul_one]
    exact congrArg (· * (10 : ℚ) ^ k) (mul_inv_cancel_right₀ (by norm_num) (n : ℚ))
  rwa [hvalue] at hrounds

theorem rounds_fraction {n : Nat} (hn : 0 < n) (k : Nat) :
    Rounds .positive (n * 10 ^ (-(k : Int)))
      (.div Format.binary64 (.finite .positive n 0 hn)
        (.finite .positive (10 ^ k) 0 (Nat.pow_pos (Nat.succ_pos 9)))) := by
  have hrounds := rounds_div (m := n) (n := 10 ^ k) (e := 0) (f := 0)
    .positive .positive hn (by positivity)
  have hvalue : (n : ℚ) * 2 ^ (0 : Int) / ((10 ^ k : Nat) * 2 ^ (0 : Int)) =
      n * 10 ^ (-(k : Int)) := by
    rw [zpow_neg, zpow_natCast, zpow_zero, mul_one, mul_one, div_eq_mul_inv, Nat.cast_pow,
      Nat.cast_ofNat]
  rwa [hvalue] at hrounds

theorem assemble_ofScientific {n : Nat} (hn : 0 < n) {u : UnpackedFloat}
    (h : Rounds .positive (n * 10 ^ e) u) :
    assemble (UnpackedFloat.ofScientific Format.binary64 n e) = assemble u := by
  unfold UnpackedFloat.ofScientific
  rw [dif_neg hn.ne']
  by_cases hlarge : e > 2 ^ 11
  · rw [if_pos hlarge, assemble_of_large (le_mul_zpow_of_large hn hlarge) h]
  rw [if_neg hlarge]
  by_cases hsmall : e < -((2 ^ 11 : Int) + n.log2)
  · rw [if_pos hsmall, eq_zero_of_small (mul_zpow_lt_of_small hsmall) h]
  rw [if_neg hsmall]
  by_cases hpos : 0 ≤ e
  · rw [if_pos hpos]
    obtain ⟨k, rfl⟩ := Int.eq_ofNat_of_zero_le hpos
    exact congrArg assemble ((rounds_wholePower hn k).eq h)
  · rw [if_neg hpos]
    have he : e = -((-e).toNat : Int) := by omega
    rw [he] at h
    exact congrArg assemble ((rounds_fraction hn (-e).toNat).eq h)

theorem ofScientific_eq {n : Nat} (hn : 0 < n) {negative : Bool} {k : Nat} {u : UnpackedFloat}
    (h : Rounds .positive (n * 10 ^ (if negative then -(k : Int) else k)) u) :
    Float.ofScientific n negative k = assemble u := by
  unfold Float.ofScientific
  split
  next hfast =>
    -- both operands are exact, so that the operation rounds the exact result
    obtain ⟨m₁, e₁, hm₁, hbits₁, hvalue₁, -⟩ := exists_canonicalPair hn hfast.1
    obtain ⟨m₂, e₂, hpos₂, hparts₂, hbits₂, hvalue₂⟩ :=
      exists_of_isPowerOfTen (isPowerOfTen_table k (Nat.lt_succ_of_le hfast.2))
    have hparts₁ := parts_toFloat hm₁ hfast.1 hvalue₁
    cases negative with
    | false =>
      have hrounds := rounds_mul (e := e₁) (f := e₂) .positive .positive hm₁.pos hpos₂ (by nlinarith)
      rw [hvalue₁, hvalue₂] at hrounds
      rw [if_neg Bool.false_ne_true, zpow_natCast] at h
      rw [if_neg Bool.false_ne_true, mul_eq, hparts₁]
      exact congrArg assemble ((congrArg _ hparts₂).trans (hrounds.eq h))
    | true =>
      have hrounds := rounds_div (e := e₁) (f := e₂) .positive .positive hm₁.pos hpos₂
      rw [hvalue₁, hvalue₂] at hrounds
      rw [if_pos rfl, zpow_neg, zpow_natCast, ← div_eq_mul_inv] at h
      rw [if_pos rfl, div_eq, hparts₁]
      exact congrArg assemble ((congrArg _ hparts₂).trans (hrounds.eq h))
  next =>
    cases negative with
    | false => exact assemble_ofScientific hn h
    | true =>
      have hneg : Int.negOfNat k = -k := Int.negOfNat_eq
      rw [if_pos rfl] at h
      simp only [if_pos, hneg]
      exact assemble_ofScientific hn h

/-! ## Exact integers -/

theorem rounds_ten_zero {n : Nat} {u : UnpackedFloat} (h : Rounds .positive n u) :
    Rounds .positive (n * 10 ^ (if false = true then -((0 : Nat) : Int) else (0 : Nat))) u := by
  rwa [if_neg Bool.false_ne_true, Nat.cast_zero, zpow_zero, mul_one]

theorem ofNat_eq {n : Nat} (h : CanonicalPair m e) (hvalue : (m : ℚ) * 2 ^ e = n) (hn : 0 < n) :
    Float.ofNat n = assemble (.finite .positive m e h.pos) :=
  ofScientific_eq hn (rounds_ten_zero (hvalue ▸ h.rounds .positive))

/-- The parts of an integer: its own digits, moved to the front of the mantissa. -/
theorem parts_ofInt {n : Int} (hn : n ≠ 0) (hlt : n.natAbs < 2 ^ 53) :
    ∃ s : Sign, ∃ k : Nat, ∃ hm, parts (Float.ofInt n) = .finite s (n.natAbs * 2 ^ k) (-k) hm ∧
      signed s n.natAbs = n := by
  obtain ⟨m, e, hpair, -, hvalue, k, rfl, rfl⟩ :=
    exists_canonicalPair (Int.natAbs_pos.2 hn) hlt
  have hnat := ofNat_eq hpair hvalue (Int.natAbs_pos.2 hn)
  cases n with
  | ofNat n =>
    refine ⟨.positive, k, hpair.pos, ?_, rfl⟩
    have hof : Float.ofInt (Int.ofNat n) = Float.ofNat (Int.ofNat n).natAbs := rfl
    rw [hof, hnat]
    exact parts_assemble hpair
  | negSucc n =>
    refine ⟨.negative, k, hpair.pos, ?_, rfl⟩
    have hof : Float.ofInt (Int.negSucc n) = -Float.ofNat (Int.negSucc n).natAbs := rfl
    have hcanonical : Canonical (.finite .positive ((Int.negSucc n).natAbs * 2 ^ k) (-k) hpair.pos) :=
      hpair
    rw [hof, hnat, neg_eq, parts_assemble hcanonical]
    exact parts_assemble (u := .finite .negative _ _ hpair.pos) hpair

theorem nearestBinary_mul_pow (n k : Nat) : nearestBinary (n * 2 ^ k) (-k) = n := by
  unfold nearestBinary
  have hpow : 0 < 2 ^ k := Nat.two_pow_pos k
  split
  next =>
    have hsplit : 2 * (n * 2 ^ k) + 2 ^ k = 2 ^ (k + 1) * n + 2 ^ k := by ring
    simp only [Int.natAbs_neg, Int.natAbs_natCast]
    show (2 * (n * 2 ^ k) + 2 ^ k) / 2 ^ (k + 1) = n
    rw [hsplit, Nat.mul_add_div (Nat.two_pow_pos _), Nat.div_eq_of_lt, Nat.add_zero]
    exact Nat.pow_lt_pow_right Nat.one_lt_two k.lt_succ_self
  next hneg =>
    obtain rfl : k = 0 := by omega
    show n * 2 ^ 0 * 2 ^ 0 = n
    rw [Nat.pow_zero, Nat.mul_one, Nat.mul_one]

theorem integer?_ofInt {n : Int} (hlt : n.natAbs < 2 ^ 53) : integer? (Float.ofInt n) = some n := by
  by_cases hn : n = 0
  · rw [hn]
    decide +kernel
  · obtain ⟨s, k, hm, hparts, hsigned⟩ := parts_ofInt hn hlt
    have hparts : (Float.ofInt n).toModel.unpack = .finite s (n.natAbs * 2 ^ k) (-k) hm := hparts
    have hpow : Nat.pow 2 k = 2 ^ k := rfl
    rw [integer?, hparts]
    dsimp only
    rw [Int.natAbs_neg, Int.natAbs_natCast, hpow]
    split
    next =>
      rw [if_pos (Nat.mul_mod_left ..), Nat.mul_div_cancel _ (Nat.two_pow_pos k), hsigned]
    next hneg =>
      obtain rfl : k = 0 := by omega
      rw [Nat.pow_zero, Nat.mul_one, Nat.mul_one, hsigned]

end LineBasic.Number
