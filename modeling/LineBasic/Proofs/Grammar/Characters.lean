import Mathlib.Data.String.Basic
import LineBasic.Grammar.Lexical

/-!
# Classes of characters

The classes that the grammar distinguishes, as ranges of code points, so that whether two of them
overlap is arithmetic.
-/

namespace LineBasic

theorem isUpper_iff (c : Char) : c.isUpper = true ↔ 65 ≤ c.toNat ∧ c.toNat ≤ 90 := by
  unfold Char.isUpper
  simp [UInt32.le_iff_toNat_le]

theorem isLower_iff (c : Char) : c.isLower = true ↔ 97 ≤ c.toNat ∧ c.toNat ≤ 122 := by
  unfold Char.isLower
  simp [UInt32.le_iff_toNat_le]

theorem isAlpha_iff (c : Char) :
    c.isAlpha = true ↔ 65 ≤ c.toNat ∧ c.toNat ≤ 90 ∨ 97 ≤ c.toNat ∧ c.toNat ≤ 122 := by
  change (c.isUpper || c.isLower) = true ↔ _
  rw [Bool.or_eq_true, isUpper_iff, isLower_iff]

theorem isDigit_iff (c : Char) : c.isDigit = true ↔ 48 ≤ c.toNat ∧ c.toNat ≤ 57 := by
  unfold Char.isDigit
  simp [UInt32.le_iff_toNat_le]

theorem eq_iff_toNat_eq (c d : Char) : c = d ↔ c.toNat = d.toNat := Char.toNat_inj.symm

theorem Text.isBlank_iff (c : Char) : Text.isBlank c = true ↔ c.toNat = 32 ∨ c.toNat = 9 := by
  rw [isBlank, Bool.or_eq_true, beq_iff_eq, beq_iff_eq, eq_iff_toNat_eq, eq_iff_toNat_eq]
  rfl

/-- Suffixes are `!`, `#`, `$` and `%`. -/
theorem StorageType.isSome_ofSuffix?_iff (c : Char) :
    (ofSuffix? c).isSome = true ↔ c.toNat = 33 ∨ 35 ≤ c.toNat ∧ c.toNat ≤ 37 := by
  constructor
  · intro h
    unfold ofSuffix? at h
    split at h
    · decide
    · decide
    · decide
    · decide
    · cases h
  · intro h
    have hcases : c = '!' ∨ c = '#' ∨ c = '$' ∨ c = '%' := by
      simp only [eq_iff_toNat_eq]
      simp only [Char.reduceToNat]
      omega
    rcases hcases with rfl | rfl | rfl | rfl <;> rfl

/-! ## Case -/

theorem toNat_toLower (c : Char) :
    c.toLower.toNat = if 65 ≤ c.toNat ∧ c.toNat ≤ 90 then c.toNat + 32 else c.toNat := by
  have hcond : c.val ≥ 'A'.val ∧ c.val ≤ 'Z'.val ↔ 65 ≤ c.toNat ∧ c.toNat ≤ 90 := by
    rw [ge_iff_le, UInt32.le_iff_toNat_le, UInt32.le_iff_toNat_le]
    rfl
  unfold Char.toLower
  split
  next h =>
    have hrange : 65 ≤ c.val.toNat ∧ c.val.toNat ≤ 90 := hcond.1 h
    have hshift : ('a'.val - 'A'.val).toNat = 32 := rfl
    rw [if_pos (hcond.1 h)]
    change (c.val + ('a'.val - 'A'.val)).toNat = c.val.toNat + 32
    rw [UInt32.toNat_add, hshift]
    omega
  next h => rw [if_neg (mt hcond.2 h)]

theorem toNat_toUpper (c : Char) :
    c.toUpper.toNat = if 97 ≤ c.toNat ∧ c.toNat ≤ 122 then c.toNat - 32 else c.toNat := by
  have hcond : c.val ≥ 'a'.val ∧ c.val ≤ 'z'.val ↔ 97 ≤ c.toNat ∧ c.toNat ≤ 122 := by
    rw [ge_iff_le, UInt32.le_iff_toNat_le, UInt32.le_iff_toNat_le]
    rfl
  unfold Char.toUpper
  split
  next h =>
    have hrange : 97 ≤ c.val.toNat ∧ c.val.toNat ≤ 122 := hcond.1 h
    have hshift : ('A'.val - 'a'.val).toNat = 4294967264 := rfl
    rw [if_pos (hcond.1 h)]
    change (c.val + ('A'.val - 'a'.val)).toNat = c.val.toNat - 32
    rw [UInt32.toNat_add, hshift]
    omega
  next h => rw [if_neg (mt hcond.2 h)]

theorem toUpper_toUpper (c : Char) : c.toUpper.toUpper = c.toUpper := by
  rw [eq_iff_toNat_eq, toNat_toUpper, toNat_toUpper]
  by_cases h : 97 ≤ c.toNat ∧ c.toNat ≤ 122
  · rw [if_pos h, if_neg (by omega)]
  · rw [if_neg h, if_neg h]

theorem isAlpha_toUpper (c : Char) : c.toUpper.isAlpha = c.isAlpha := by
  rw [Bool.eq_iff_iff, isAlpha_iff, isAlpha_iff, toNat_toUpper]
  split <;> omega

theorem Text.upper_upper (s : String) : Text.upper (Text.upper s) = Text.upper s := by
  rw [← String.toList_inj, upper, upper, String.toList_map, String.toList_map, List.map_map]
  exact List.map_congr_left fun c _ => toUpper_toUpper c

namespace Grammar

/-- Apart from the Kelvin sign, folding for comparison is lower case. -/
theorem foldCase_eq_toLower {c : Char} (h : foldCase c ≠ 'k') : foldCase c = c.toLower := by
  rw [foldCase] at h ⊢
  split at h
  next => exact absurd rfl h
  next hkelvin => rw [if_neg hkelvin]

theorem foldCase_of_ascii {c : Char} (h : c.toNat ≤ 127) : foldCase c = c.toLower := by
  rw [foldCase, if_neg]
  rintro rfl
  exact absurd h (by decide)

/-- What folds to a character of ASCII other than `k` is of ASCII. -/
theorem utf8Size_of_foldCase {c d : Char} (hc : c.toNat ≤ 127) (hk : foldCase c ≠ 'k')
    (h : foldCase d = foldCase c) : d.utf8Size = 1 := by
  have hd : foldCase d ≠ 'k' := h ▸ hk
  rw [foldCase_eq_toLower hk, foldCase_eq_toLower hd, eq_iff_toNat_eq, toNat_toLower,
    toNat_toLower] at h
  have hascii : d.toNat ≤ 127 := by
    split at h <;> split at h <;> omega
  rw [Char.utf8Size_eq_one_iff, UInt32.le_iff_toNat_le]
  exact hascii

/-- Letters that differ in case only have the same capital letter. -/
theorem toUpper_of_foldCase {c d : Char} (hk : foldCase c ≠ 'k') (h : foldCase d = foldCase c) :
    d.toUpper = c.toUpper := by
  have hd : foldCase d ≠ 'k' := h ▸ hk
  rw [foldCase_eq_toLower hk, foldCase_eq_toLower hd, eq_iff_toNat_eq, toNat_toLower,
    toNat_toLower] at h
  rw [eq_iff_toNat_eq, toNat_toUpper, toNat_toUpper]
  split at h <;> split at h <;> split <;> split <;> omega

end Grammar
end LineBasic
