import Mathlib.Data.Int.Log
import Mathlib.Data.Rat.Floor
import Mathlib.Tactic.Linarith
import Mathlib.Tactic.Ring
import LineBasic.Proofs.Number.Packing

/-!
# Rounding

The arithmetic on parts brings a mantissa to the precision of the format bit by bit, and remembers
in two further bits how much it has dropped. These bits say where the exact value lies
(`Number.Approximates`), so that the rounded parts depend on the exact value alone
(`Number.Rounds.eq`): it has no influence from which mantissa and exponent the rounding starts. In
particular a value that the format has is not changed.
-/

namespace LineBasic.Number

open Float.Model UnpackedFloat

/-! ## Mantissas with dropped bits -/

/-- The value lies where the mantissa and its two further bits say: at the mantissa, below, at or
above the middle to the next one. -/
def Approximates : ExtendedMantissa → ℚ → Prop
  | ⟨m, false, false⟩, q => q = m
  | ⟨m, false, true⟩, q => m < q ∧ q < m + 1 / 2
  | ⟨m, true, false⟩, q => q = m + 1 / 2
  | ⟨m, true, true⟩, q => m + 1 / 2 < q ∧ q < m + 1

namespace Approximates

variable {em em' : ExtendedMantissa} {q : ℚ}

theorem le (h : Approximates em q) : em.mantissa ≤ q := by
  obtain ⟨m, _ | _, _ | _⟩ := em <;> simp only [Approximates] at h ⊢ <;> linarith

theorem lt (h : Approximates em q) : q < em.mantissa + 1 := by
  obtain ⟨m, _ | _, _ | _⟩ := em <;> simp only [Approximates] at h ⊢ <;> linarith

theorem mantissa_eq (h : Approximates em q) (h' : Approximates em' q) :
    em.mantissa = em'.mantissa := by
  have hlt : (em.mantissa : ℚ) < em'.mantissa + 1 := h.le.trans_lt h'.lt
  have hgt : (em'.mantissa : ℚ) < em.mantissa + 1 := h'.le.trans_lt h.lt
  have hlt : em.mantissa < em'.mantissa + 1 := by exact_mod_cast hlt
  have hgt : em'.mantissa < em.mantissa + 1 := by exact_mod_cast hgt
  omega

/-- A value has one mantissa with its bits. -/
theorem unique (h : Approximates em q) (h' : Approximates em' q) : em = em' := by
  have hm := h.mantissa_eq h'
  obtain ⟨m, round, sticky⟩ := em
  obtain ⟨m', round', sticky'⟩ := em'
  obtain rfl : m = m' := hm
  cases round <;> cases sticky <;> cases round' <;> cases sticky' <;>
    simp only [Approximates] at h h' <;> first | rfl | (exfalso; linarith)

theorem shiftRightOne (h : Approximates em q) : Approximates em.shiftRightOne (q / 2) := by
  obtain ⟨m, round, sticky⟩ := em
  have hm : (m : ℚ) = 2 * (m / 2 : Nat) + (m % 2 : Nat) := by
    exact_mod_cast (Nat.div_add_mod m 2).symm
  have hodd : ((1 : Nat) != 0) = true := rfl
  rcases Nat.mod_two_eq_zero_or_one m with hmod | hmod <;> cases round <;> cases sticky <;>
    simp only [Approximates, ExtendedMantissa.shiftRightOne, hmod, hodd, Nat.cast_zero,
      Nat.cast_one, bne_self_eq_false, Bool.or_self, Bool.or_false, Bool.or_true] at h hm ⊢ <;>
    first | linarith | (constructor <;> linarith)

theorem shiftRight (h : Approximates em q) (n : Nat) : Approximates (em >>> n) (q / 2 ^ n) := by
  show Approximates (n.repeat ExtendedMantissa.shiftRightOne em) _
  induction n with
  | zero => simpa [Nat.repeat] using h
  | succ n ih =>
    rw [Nat.repeat, pow_succ, ← div_div]
    exact ih.shiftRightOne

end Approximates

/-! ## Descriptions of a value -/

/-- The exponent that the format has for a value. -/
def target (w : ℚ) : Int := max (Int.log 2 w - 52) (-1074)

/-- A mantissa, an exponent and an accuracy say where a positive value lies, at least as finely as
the format does. -/
structure Describes (m : Nat) (e : Int) (acc : Accuracy) (w : ℚ) : Prop where
  pos : 0 < w
  approximates : Approximates (.ofMantissaAndAccuracy m acc) (w / 2 ^ e)
  bits : 0 < m ∨ e ≤ -1074
  fine : e ≤ target w

theorem targetExponent_eq (k : Int) :
    Format.binary64.targetExponent k = max (k - 53) (-1074) := rfl

theorem log_eq {w : ℚ} {k : Int} (h : 2 ^ k ≤ w) (h' : w < 2 ^ (k + 1)) : Int.log 2 w = k := by
  have hw : 0 < w := (zpow_pos two_pos k).trans_le h
  have hle : k ≤ Int.log 2 w := (Int.zpow_le_iff_le_log Nat.one_lt_two hw).1 (by exact_mod_cast h)
  have hlt : Int.log 2 w < k + 1 := (Int.lt_zpow_iff_log_lt Nat.one_lt_two hw).1 (by exact_mod_cast h')
  omega

/-- The bits of a mantissa decide the exponent that the format has for a value in its last place. -/
theorem targetExponent_eq_target {m : Nat} {e : Int} {w : ℚ} (hm : 0 < m)
    (hle : (m : ℚ) * 2 ^ e ≤ w) (hlt : w < (m + 1) * 2 ^ e) :
    Format.binary64.targetExponent (totalExponent m e) = target w := by
  have hlow : (2 : ℚ) ^ m.log2 ≤ m := by exact_mod_cast Nat.log2_self_le hm.ne'
  have hhigh : (m : ℚ) + 1 ≤ 2 ^ (m.log2 + 1) := by exact_mod_cast Nat.lt_log2_self (n := m)
  have hpos : (0 : ℚ) < 2 ^ e := zpow_pos two_pos e
  have hlog : Int.log 2 w = m.log2 + e := by
    refine log_eq ?_ ?_
    · rw [zpow_add₀ two_ne_zero, zpow_natCast]
      exact (mul_le_mul_of_nonneg_right hlow hpos.le).trans hle
    · rw [show (m.log2 : Int) + e + 1 = ((m.log2 + 1 : Nat) : Int) + e by push_cast; ring,
        zpow_add₀ two_ne_zero, zpow_natCast]
      exact hlt.trans_le (mul_le_mul_of_nonneg_right hhigh hpos.le)
  rw [targetExponent_eq, totalExponent, target, hlog]
  congr 1
  ring

namespace Describes

variable {m m' : Nat} {e e' : Int} {acc acc' : Accuracy} {w : ℚ}

theorem mantissa_ofMantissaAndAccuracy (m : Nat) (acc : Accuracy) :
    (ExtendedMantissa.ofMantissaAndAccuracy m acc).mantissa = m := by
  rcases acc with _ | (_ | _ | _) <;> rfl

theorem mul_le (h : Describes m e acc w) : (m : ℚ) * 2 ^ e ≤ w := by
  have hle := h.approximates.le
  rw [mantissa_ofMantissaAndAccuracy] at hle
  rwa [← le_div_iff₀ (zpow_pos two_pos e)]

theorem lt_mul (h : Describes m e acc w) : w < (m + 1) * 2 ^ e := by
  have hlt := h.approximates.lt
  rw [mantissa_ofMantissaAndAccuracy] at hlt
  rwa [← div_lt_iff₀ (zpow_pos two_pos e)]

theorem targetExponent (h : Describes m e acc w) :
    Format.binary64.targetExponent (totalExponent m e) = target w := by
  rcases Nat.eq_zero_or_pos m with rfl | hm
  · have he : e ≤ -1074 := h.bits.resolve_left (lt_irrefl 0)
    have hlog : Int.log 2 w < e := by
      rw [← Int.lt_zpow_iff_log_lt Nat.one_lt_two h.pos]
      simpa using h.lt_mul
    have hzero : Nat.log2 0 = 0 := rfl
    rw [targetExponent_eq, totalExponent, target, hzero]
    omega
  · exact targetExponent_eq_target hm h.mul_le h.lt_mul

/-- The first shift brings the mantissa to the exponent of the format. -/
theorem shift (h : Describes m e acc w) :
    Approximates (shiftToTargetExponent Format.binary64 m e acc).1 (w / 2 ^ target w) ∧
      (shiftToTargetExponent Format.binary64 m e acc).2 = target w := by
  have hfine := h.fine
  have hshift : ((target w - e).toNat : Int) = target w - e := Int.toNat_of_nonneg (by omega)
  unfold shiftToTargetExponent shiftToExponent
  rw [h.targetExponent]
  dsimp only
  refine ⟨?_, by omega⟩
  have hpow : (2 : ℚ) ^ target w = 2 ^ e * 2 ^ (target w - e).toNat := by
    rw [← zpow_natCast, hshift, ← zpow_add₀ two_ne_zero]
    congr 1
    omega
  rw [hpow, ← div_div]
  exact h.approximates.shiftRight _

/-- Rounding depends on the value alone. -/
theorem roundWithAccuracy_eq (h : Describes m e acc w) (h' : Describes m' e' acc' w) (s : Sign) :
    roundWithAccuracy Format.binary64 s m e acc = roundWithAccuracy Format.binary64 s m' e' acc' := by
  have hshift : shiftToTargetExponent Format.binary64 m e acc =
      shiftToTargetExponent Format.binary64 m' e' acc' :=
    Prod.ext (h.shift.1.unique h'.shift.1) (h.shift.2.trans h'.shift.2.symm)
  unfold roundWithAccuracy
  rw [hshift]

end Describes

/-- Rounding gives a zero or a finite number of the sign. -/
theorem roundWithAccuracy_cases (s : Sign) (m : Nat) (e : Int) (acc : Accuracy) :
    roundWithAccuracy Format.binary64 s m e acc = .zero s ∨
      ∃ m' e', ∃ hm : 0 < m', roundWithAccuracy Format.binary64 s m e acc = .finite s m' e' hm := by
  by_cases h : (shiftToTargetExponent Format.binary64
      (shiftToTargetExponent Format.binary64 m e acc).1.roundedMantissa
      (shiftToTargetExponent Format.binary64 m e acc).2 .exact).1.mantissa = 0
  · exact .inl (dif_pos h)
  · exact .inr ⟨_, _, Nat.pos_of_ne_zero h, dif_neg h⟩

/-- The parts are those of the value, rounded. -/
def Rounds (s : Sign) (w : ℚ) (u : UnpackedFloat) : Prop :=
  ∃ m e acc, Describes m e acc w ∧ u = roundWithAccuracy Format.binary64 s m e acc

theorem Rounds.eq {s : Sign} {w : ℚ} {u v : UnpackedFloat} (hu : Rounds s w u)
    (hv : Rounds s w v) : u = v := by
  obtain ⟨m, e, acc, h, rfl⟩ := hu
  obtain ⟨m', e', acc', h', rfl⟩ := hv
  exact h.roundWithAccuracy_eq h' s

/-! ## Values of the format -/

theorem CanonicalPair.targetExponent {m : Nat} {e : Int} (h : CanonicalPair m e) :
    Format.binary64.targetExponent (totalExponent m e) = e := by
  have hlt : m.log2 < 53 := (Nat.log2_lt h.pos.ne').2 h.lt
  have hleast := h.least
  rw [targetExponent_eq, totalExponent]
  rcases h.full with hfull | rfl
  · have hle : 52 ≤ m.log2 := (Nat.le_log2 h.pos.ne').2 hfull
    omega
  · omega

/-- Canonical parts are not changed by rounding. -/
theorem CanonicalPair.roundWithAccuracy {m : Nat} {e : Int} (h : CanonicalPair m e) (s : Sign) :
    roundWithAccuracy Format.binary64 s m e .exact = .finite s m e h.pos := by
  have hshift : shiftToTargetExponent Format.binary64 m e .exact = (⟨m, false, false⟩, e) := by
    unfold shiftToTargetExponent shiftToExponent
    simp [h.targetExponent, ExtendedMantissa.ofMantissaAndAccuracy, HShiftRight.hShiftRight, Nat.repeat]
  unfold UnpackedFloat.roundWithAccuracy
  rw [hshift]
  have hne : ¬ (shiftToTargetExponent Format.binary64 m e .exact).1.mantissa = 0 := by
    rw [hshift]
    exact h.pos.ne'
  exact (dif_neg hne).trans (finite_congr (congrArg (fun first => first.1.mantissa) hshift)
    (congrArg Prod.snd hshift) _)

theorem describes_exact {m : Nat} {e : Int} (hm : 0 < m)
    (he : e ≤ Format.binary64.targetExponent (totalExponent m e)) :
    Describes m e .exact (m * 2 ^ e) := by
  have hpow : (0 : ℚ) < 2 ^ e := zpow_pos two_pos e
  have hpos : (0 : ℚ) < m := by exact_mod_cast hm
  have hlt : (m : ℚ) * 2 ^ e < (m + 1) * 2 ^ e := mul_lt_mul_of_pos_right (lt_add_one _) hpow
  refine ⟨mul_pos hpos hpow, ?_, .inl hm, ?_⟩
  · rw [mul_div_cancel_right₀ _ hpow.ne']
    rfl
  · rwa [← targetExponent_eq_target hm le_rfl hlt]

theorem CanonicalPair.rounds {m : Nat} {e : Int} (h : CanonicalPair m e) (s : Sign) :
    Rounds s (m * 2 ^ e) (.finite s m e h.pos) :=
  ⟨m, e, .exact, describes_exact h.pos h.targetExponent.ge, (h.roundWithAccuracy s).symm⟩

end LineBasic.Number
