import Mathlib.Algebra.Order.Ring.Nat
import Mathlib.Algebra.Order.Group.Unbundled.Int
import Mathlib.Data.BitVec
import LineBasic.Number.Arithmetic

/-!
# The parts of a floating-point number

A floating-point number of 64 bits is its sign, mantissa and exponent (`Number.parts`), and is put
together from them again (`Number.assemble`). Nothing is lost in either direction as long as the
parts are those that the format has (`Number.Canonical`), so that facts about the arithmetic are
facts about the operations on parts.
-/

namespace LineBasic.Number

open Float.Model UnpackedFloat

def parts (x : Float) : UnpackedFloat := x.toModel.unpack

def assemble (u : UnpackedFloat) : Float := .ofModel (.pack u)

/-- The mantissas and exponents of the format: up to 53 bits, all of them used above the least
exponent. -/
structure CanonicalPair (m : Nat) (e : Int) : Prop where
  pos : 0 < m
  lt : m < 2 ^ 53
  least : -1074 ≤ e
  most : e ≤ 971
  full : 2 ^ 52 ≤ m ∨ e = -1074

def Canonical : UnpackedFloat → Prop
  | .finite _ m e _ => CanonicalPair m e
  | _ => True

theorem canonical_zero (s : Sign) : Canonical (.zero s) := trivial

/-! ## Fields of the packed form -/

theorem unpackSign_packComponents (s : Sign) (e : BitVec 11) (m : BitVec 52) :
    unpackSign (packComponents Format.binary64 s e m) = s.toBitVec := by
  unfold packComponents unpackSign BitVec.extractLsb
  ext i hi
  grind

theorem ofBitVec_toBitVec (s : Sign) : Sign.ofBitVec s.toBitVec = s := by
  cases s <;> rfl

theorem toBitVec_ofBitVec (b : BitVec 1) : (Sign.ofBitVec b).toBitVec = b := by
  revert b
  decide

/-- The packed form is made of its three fields. -/
theorem packComponents_unpack (b : BitVec Format.binary64.numBits) :
    packComponents Format.binary64 (Sign.ofBitVec (unpackSign b)) (unpackExponent b)
      (unpackMantissa b) = b := by
  rw [packComponents, toBitVec_ofBitVec]
  unfold unpackSign unpackExponent unpackMantissa BitVec.extractLsb
  ext i hi
  grind

theorem toNat_implicitBit (m : BitVec 52) : (1#1 ++ m).toNat = 2 ^ 52 + m.toNat := by
  rw [BitVec.toNat_append, ← Nat.shiftLeft_add_eq_or_of_lt m.isLt]
  rfl

theorem log2_eq {m k : Nat} (h : 2 ^ k ≤ m) (h' : m < 2 ^ (k + 1)) : m.log2 = k := by
  have hpos : m ≠ 0 := by
    have := Nat.two_pow_pos k
    omega
  have hle := (Nat.le_log2 hpos).2 h
  have hlt := (Nat.log2_lt hpos).2 h'
  omega

theorem finite_congr {s : Sign} {m m' : Nat} {e e' : Int} {h : 0 < m} (hm : m = m') (he : e = e')
    (h' : 0 < m') : UnpackedFloat.finite s m e h = .finite s m' e' h' := by
  subst hm he
  rfl

/-! ## From the packed form to the parts -/

/-- How the exponent and the mantissa field of a packed number decide its parts. -/
inductive Fields (s : Sign) (e : BitVec 11) (m : BitVec 52) : UnpackedFloat → Prop
  | infinity : e = -1#11 → m = 0#52 → Fields s e m (.infinity s)
  | notANumber : e = -1#11 → m ≠ 0#52 → Fields s e m .notANumber
  | zero : e = 0#11 → m = 0#52 → Fields s e m (.zero s)
  | subnormal (h : 0 < m.toNat) : e = 0#11 → Fields s e m (.finite s m.toNat (-1074) h)
  | normal (h : 0 < 2 ^ 52 + m.toNat) : 0 < e.toNat → e.toNat < 2047 →
    Fields s e m (.finite s (2 ^ 52 + m.toNat) (e.toNat - 1075) h)

theorem toNat_pos {w : Nat} {b : BitVec w} (h : b ≠ 0#w) : 0 < b.toNat := by
  rw [Nat.pos_iff_ne_zero]
  intro hzero
  exact h (BitVec.eq_of_toNat_eq hzero)

theorem fields_unpack (b : BitVec Format.binary64.numBits) :
    Fields (Sign.ofBitVec (unpackSign b)) (unpackExponent b) (unpackMantissa b)
      (UnpackedFloat.unpack Format.binary64 b) := by
  unfold UnpackedFloat.unpack
  by_cases hones : unpackExponent b = -1#11
  · by_cases hm : unpackMantissa b = 0#52
    · rw [if_pos hones, if_pos hm]
      exact .infinity hones hm
    · rw [if_pos hones, if_neg hm]
      exact .notANumber hones hm
  have hlt : (unpackExponent b).toNat < 2047 := by
    have hle := (unpackExponent b).isLt
    have hne : (unpackExponent b).toNat ≠ 2047 := fun h => hones (BitVec.eq_of_toNat_eq h)
    have hpow : 2 ^ Format.binary64.exponentBits = 2048 := rfl
    omega
  by_cases hzero : unpackExponent b = 0#11
  · by_cases hm : unpackMantissa b = 0#52
    · rw [if_neg hones, if_pos hzero, dif_pos hm]
      exact .zero hzero hm
    · rw [if_neg hones, if_pos hzero, dif_neg hm]
      rw [hzero]
      exact .subnormal (toNat_pos hm) rfl
  · rw [if_neg hones, if_neg hzero]
    rw [finite_congr (toNat_implicitBit _) rfl (by omega)]
    exact .normal _ (toNat_pos hzero) hlt

theorem Fields.canonical {s : Sign} {e : BitVec 11} {m : BitVec 52} {u : UnpackedFloat}
    (h : Fields s e m u) : Canonical u := by
  have hm := m.isLt
  cases h with
  | infinity | notANumber | zero => trivial
  | subnormal hpos =>
    exact ⟨hpos, by omega, by omega, by omega, .inr rfl⟩
  | normal hpos hlo hhi =>
    exact ⟨hpos, by omega, by omega, by omega, .inl (by omega)⟩

/-- The fields from which parts come are the ones into which they go. -/
theorem Fields.pack {s : Sign} {e : BitVec 11} {m : BitVec 52} {u : UnpackedFloat}
    (h : Fields s e m u) (hu : u ≠ .notANumber) :
    UnpackedFloat.pack Format.binary64 u = packComponents Format.binary64 s e m := by
  have hm := m.isLt
  have hbias : (Format.binary64.exponentBias : Int) = 1023 := rfl
  have hbits : Format.binary64.mantissaBits = 53 := rfl
  cases h with
  | infinity he hm =>
    rw [he, hm]
    rfl
  | notANumber => exact absurd rfl hu
  | zero he hm =>
    rw [he, hm]
    rfl
  | subnormal hpos he =>
    have hlog : ¬ m.toNat.log2 + 1 = 53 := by
      have := (Nat.log2_lt hpos.ne').2 hm
      omega
    unfold UnpackedFloat.pack
    dsimp only
    rw [hbits, if_neg (by decide), if_neg hlog, he, BitVec.ofNat_toNat, BitVec.setWidth_eq]
  | normal hpos hlo hhi =>
    have hlog : (2 ^ 52 + m.toNat).log2 = 52 := log2_eq (by omega) (by omega)
    have hbiased : ((e.toNat : Int) - 1075 + Format.binary64.exponentBias + (52 : Nat)).toNat =
        e.toNat := by
      rw [hbias]
      omega
    have hfit : ¬ 2 ^ 11 ≤ e.toNat + 1 := by omega
    have hmantissa : BitVec.ofNat 52 (2 ^ 52 + m.toNat) = m := by
      apply BitVec.eq_of_toNat_eq
      rw [BitVec.toNat_ofNat, Nat.add_mod_left, Nat.mod_eq_of_lt hm]
    unfold UnpackedFloat.pack
    simp only [hlog, hbits, hbiased]
    rw [if_neg hfit, if_pos trivial, hmantissa, BitVec.ofNat_toNat, BitVec.setWidth_eq]

/-! ## From the parts to the packed form -/

theorem Fields.eq {s : Sign} {e : BitVec 11} {m : BitVec 52} {u v : UnpackedFloat}
    (hu : Fields s e m u) (hv : Fields s e m v) : u = v := by
  cases hu with
  | infinity he hm =>
    cases hv with
    | infinity => rfl
    | notANumber _ hne => exact absurd hm hne
    | zero he' => exact absurd (he.symm.trans he') (by decide)
    | subnormal _ he' => exact absurd (he.symm.trans he') (by decide)
    | normal _ _ hhi => exact absurd hhi (by rw [he]; decide)
  | notANumber he hm =>
    cases hv with
    | infinity _ heq => exact absurd heq hm
    | notANumber => rfl
    | zero he' => exact absurd (he.symm.trans he') (by decide)
    | subnormal _ he' => exact absurd (he.symm.trans he') (by decide)
    | normal _ _ hhi => exact absurd hhi (by rw [he]; decide)
  | zero he hm =>
    cases hv with
    | infinity he' | notANumber he' => exact absurd (he.symm.trans he') (by decide)
    | zero => rfl
    | subnormal hpos => exact absurd hpos (by rw [hm]; decide)
    | normal _ hlo => exact absurd hlo (by rw [he]; decide)
  | subnormal hpos he =>
    cases hv with
    | infinity he' | notANumber he' => exact absurd (he.symm.trans he') (by decide)
    | zero _ hm => exact absurd hpos (by rw [hm]; decide)
    | subnormal => rfl
    | normal _ hlo => exact absurd hlo (by rw [he]; decide)
  | normal hpos hlo hhi =>
    cases hv with
    | infinity he' | notANumber he' => exact absurd hhi (by rw [he']; decide)
    | zero he' | subnormal _ he' => exact absurd hlo (by rw [he']; decide)
    | normal => rfl

theorem fields_packComponents (s : Sign) (e : BitVec 11) (m : BitVec 52) :
    Fields s e m (UnpackedFloat.unpack Format.binary64 (packComponents Format.binary64 s e m)) := by
  have h := fields_unpack (packComponents Format.binary64 s e m)
  rwa [unpackSign_packComponents, ofBitVec_toBitVec, unpackExponent_packComponents,
    unpackMantissa_packComponents] at h

/-- Canonical parts come from fields. -/
theorem Canonical.exists_fields {u : UnpackedFloat} (h : Canonical u) (hu : u ≠ .notANumber) :
    ∃ s e m, Fields s e m u := by
  cases u with
  | notANumber => exact absurd rfl hu
  | infinity s => exact ⟨s, -1#11, 0#52, .infinity rfl rfl⟩
  | zero s => exact ⟨s, 0#11, 0#52, .zero rfl rfl⟩
  | finite s m e hpos =>
    obtain ⟨-, hlt, hleast, hmost, hfull⟩ := h
    by_cases hm : 2 ^ 52 ≤ m
    · have hmantissa : 2 ^ 52 + (BitVec.ofNat 52 (m - 2 ^ 52)).toNat = m := by
        rw [BitVec.toNat_ofNat, Nat.mod_eq_of_lt (by omega)]
        omega
      have hexponent : (BitVec.ofNat 11 (e + 1075).toNat).toNat = (e + 1075).toNat := by
        rw [BitVec.toNat_ofNat, Nat.mod_eq_of_lt (by omega)]
      have he : e = (BitVec.ofNat 11 (e + 1075).toNat).toNat - 1075 := by
        rw [hexponent]
        omega
      have hfields := Fields.normal (s := s) (m := BitVec.ofNat 52 (m - 2 ^ 52))
        (e := BitVec.ofNat 11 (e + 1075).toNat) (by omega) (by omega) (by omega)
      rw [finite_congr hmantissa.symm he (by omega)]
      exact ⟨s, _, _, hfields⟩
    · obtain rfl : e = -1074 := hfull.resolve_left hm
      have hmantissa : (BitVec.ofNat 52 m).toNat = m := by
        rw [BitVec.toNat_ofNat, Nat.mod_eq_of_lt (by omega)]
      rw [finite_congr hmantissa.symm rfl (by omega)]
      exact ⟨s, _, _, .subnormal _ rfl⟩

theorem unpack_pack {u : UnpackedFloat} (h : Canonical u) :
    UnpackedFloat.unpack Format.binary64 (UnpackedFloat.pack Format.binary64 u) = u := by
  by_cases hu : u = .notANumber
  · rw [hu]
    exact (fields_packComponents _ _ _).eq (.notANumber rfl (by decide))
  · obtain ⟨s, e, m, hfields⟩ := h.exists_fields hu
    rw [hfields.pack hu]
    exact (fields_packComponents s e m).eq hfields

/-! ## Floating-point numbers and their parts -/

theorem canonical_parts (x : Float) : Canonical (parts x) := (fields_unpack _).canonical

@[simp] theorem parts_assemble {u : UnpackedFloat} (h : Canonical u) : parts (assemble u) = u :=
  unpack_pack h

@[simp] theorem assemble_parts (x : Float) : assemble (parts x) = x := by
  obtain ⟨⟨bits, hvalid⟩⟩ := x
  have hbits : UnpackedFloat.pack Format.binary64
      (UnpackedFloat.unpack Format.binary64 bits.toBitVec) = bits.toBitVec := by
    have hfields := fields_unpack bits.toBitVec
    by_cases hu : UnpackedFloat.unpack Format.binary64 bits.toBitVec = .notANumber
    · rw [hu] at hfields ⊢
      cases hfields with
      | notANumber he hm => exact (hvalid.eq_packedNaN he hm).symm
    · rw [hfields.pack hu, packComponents_unpack]
  exact congrArg Float.ofModel
    ((Float.Model.mk.injEq ..).mpr (congrArg UInt64.ofBitVec hbits))

/-- Parts with the same packed form make the same number. -/
theorem assemble_congr {u v : UnpackedFloat}
    (h : UnpackedFloat.pack Format.binary64 u = UnpackedFloat.pack Format.binary64 v) :
    assemble u = assemble v :=
  congrArg Float.ofModel ((Float.Model.mk.injEq ..).mpr (congrArg UInt64.ofBitVec h))

/-- A number is decided by its parts. -/
theorem parts_injective {x y : Float} (h : parts x = parts y) : x = y := by
  rw [← assemble_parts x, h, assemble_parts]

/-- Packing gives fields of a number, also for mantissas and exponents that the format does not
have. -/
theorem exists_pack_finite (s : Sign) {m : Nat} (e : Int) (hm : 0 < m) :
    ∃ exponent mantissa, (exponent = -1#11 → mantissa = 0#52) ∧
      UnpackedFloat.pack Format.binary64 (.finite s m e hm) =
        packComponents Format.binary64 s exponent mantissa := by
  unfold UnpackedFloat.pack
  dsimp only
  split
  next => exact ⟨-1#11, 0#52, fun _ => rfl, rfl⟩
  next hfits =>
    split
    · refine ⟨_, _, fun hones => absurd (congrArg BitVec.toNat hones) ?_, rfl⟩
      have hones : (-1#11).toNat = 2047 := rfl
      rw [BitVec.toNat_ofNat, hones]
      omega
    · exact ⟨_, _, fun hones => absurd hones (by decide), rfl⟩

/-- Packing keeps the sign. -/
theorem exists_fields_finite (s : Sign) {m : Nat} (e : Int) (hm : 0 < m) :
    ∃ exponent mantissa, (exponent = -1#11 → mantissa = 0#52) ∧
      Fields s exponent mantissa (parts (assemble (.finite s m e hm))) := by
  obtain ⟨exponent, mantissa, hnumber, hpack⟩ := exists_pack_finite s e hm
  refine ⟨exponent, mantissa, hnumber, ?_⟩
  have hparts : parts (assemble (.finite s m e hm)) = UnpackedFloat.unpack Format.binary64
      (UnpackedFloat.pack Format.binary64 (.finite s m e hm)) := rfl
  rw [hparts, hpack]
  exact fields_packComponents s exponent mantissa

end LineBasic.Number
