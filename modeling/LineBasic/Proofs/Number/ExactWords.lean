import LineBasic.Number.Exact
import LineBasic.Proofs.Number.Scientific

/-!
# Words among numbers

An arithmetic has exact words (`Arithmetic.ExactWords`) if the 16-bit integers are among its numbers:
an integer of this size is found again by rounding, and a number that is equal to it is the same
number. Floating-point numbers have them, with any library.
-/

namespace LineBasic

namespace Arithmetic

/-- The 16-bit integers are numbers of their own, and signs cancel in pairs. -/
class ExactWords (ν : Type) [Arithmetic ν] : Prop where
  neg_neg (x : ν) : - -x = x
  neg_zero : Alike (-(zero : ν)) zero
  alike_of_same {x y : ν} : same x y = true → Alike x y
  integer?_alike {x y : ν} : Alike x y → integer? x = integer? y
  nearest?_of_integer? {x : ν} {n : Int} : integer? x = some n → nearest? x = some n
  integer?_ofInt {n : Int} : IsWord16 n → integer? (ofInt n : ν) = some n
  alike_ofInt {x : ν} {n : Int} : integer? x = some n → IsWord16 n → Alike x (ofInt n)

section

variable {ν : Type} [Arithmetic ν] {x : ν} {n w : Int}

theorem word?_eq_some_iff : word? x = some w ↔ nearest? x = some w ∧ IsWord16 w := by
  rw [word?, Option.filter_eq_some_iff, IsWord16, Bool.and_eq_true, decide_eq_true_eq,
    decide_eq_true_eq]

variable [ExactWords ν]

/-- A word is its own rounding. -/
theorem word?_ofWord (h : IsWord16 n) : word? (ofInt n : ν) = some n :=
  word?_eq_some_iff.2 ⟨ExactWords.nearest?_of_integer? (ExactWords.integer?_ofInt h), h⟩

theorem word?_of_same (hn : IsWord16 n) (h : same x (ofInt n) = true) [ZeroSigns ν] :
    word? x = some n := by
  rw [word?_alike (ExactWords.alike_of_same h), word?_ofWord hn]

/-- An integer that can be taken as a word is that word. -/
theorem alike_of_word? (hword : word? x = some w) (hinteger : (integer? x).isSome) :
    Alike x (ofInt w) := by
  obtain ⟨n, hn⟩ := Option.isSome_iff_exists.1 hinteger
  obtain ⟨hnearest, hw⟩ := word?_eq_some_iff.1 hword
  rw [ExactWords.nearest?_of_integer? hn] at hnearest
  obtain rfl := Option.some.inj hnearest
  exact ExactWords.alike_ofInt hn hw

end

end Arithmetic

namespace Number

open Arithmetic Float.Model UnpackedFloat

theorem neg_neg (x : Float) : - -x = x := by
  have hsign (s : Sign) : - -s = s := by cases s <;> rfl
  have hcanonical : Canonical (parts x).neg := by
    have h := canonical_parts x
    cases hx : parts x <;> rw [hx] at h <;> exact h
  rw [neg_eq, neg_eq, parts_assemble hcanonical]
  conv_rhs => rw [← assemble_parts x]
  congr 1
  cases parts x with
  | notANumber => rfl
  | infinity s => exact congrArg UnpackedFloat.infinity (hsign s)
  | zero s => exact congrArg UnpackedFloat.zero (hsign s)
  | finite s m e hm => exact congrArg (UnpackedFloat.finite · m e hm) (hsign s)

/-- A canonical pair is decided by its value. -/
theorem CanonicalPair.eq {m m' : Nat} {e e' : Int} (h : CanonicalPair m e)
    (h' : CanonicalPair m' e') (hvalue : (m : ℚ) * 2 ^ e = m' * 2 ^ e') : m = m' ∧ e = e' := by
  have heq := (h.rounds .positive).eq_finite h' hvalue.symm
  exact (finite.inj heq).2

theorem unpackedRank_eq {u v : UnpackedFloat} (hu : u ≠ .notANumber) (hv : v ≠ .notANumber)
    (h : unpackedRank u = unpackedRank v) : u = v ∨ ∃ s t, u = .zero s ∧ v = .zero t := by
  have hsize : (ofLex (unpackedRank u)).1 = (ofLex (unpackedRank v)).1 := by rw [h]
  have hrest : (ofLex (unpackedRank u)).2 = (ofLex (unpackedRank v)).2 := by rw [h]
  rcases u with (_ | _) | _ | s | ⟨_ | _, m, e, _⟩ <;>
    rcases v with (_ | _) | _ | t | ⟨_ | _, m', e', _⟩ <;>
    first
      | exact absurd rfl hu
      | exact absurd rfl hv
      | exact .inr ⟨_, _, rfl, rfl⟩
      | exact .inl rfl
      | skip
  all_goals dsimp only [unpackedRank, ofLex_toLex] at hsize hrest
  all_goals simp at hsize hrest
  all_goals exact .inl (finite_congr hrest.2 hrest.1 _)

theorem alike_of_same {x y : Float} (h : same x y = true) : Alike x y := by
  obtain ⟨hx, hy, hrank⟩ := same_iff.1 h
  rcases unpackedRank_eq hx hy hrank with heq | ⟨s, t, hs, ht⟩
  · exact .inl (parts_injective heq)
  · exact .inr ⟨isZero_iff.2 ⟨s, hs⟩, isZero_iff.2 ⟨t, ht⟩⟩

theorem integer?_of_isZero {x : Float} (h : isZero x = true) : integer? x = some 0 := by
  obtain ⟨s, hs⟩ := isZero_iff.1 h
  have hs : x.toModel.unpack = .zero s := hs
  rw [integer?, hs]

theorem integer?_alike {x y : Float} (h : Alike x y) : integer? x = integer? y :=
  h.eq_of_zero fun _ hx => integer?_of_isZero hx

/-- The parts of a number that is an integer. -/
theorem integer?_eq_some {x : Float} {n : Int} (h : integer? x = some n) :
    isZero x = true ∧ n = 0 ∨
      ∃ s m e, ∃ hm, parts x = .finite s m e hm ∧ (m : ℚ) * 2 ^ e = n.natAbs ∧
        signed s n.natAbs = n ∧ nearestBinary m e = n.natAbs ∧ n ≠ 0 := by
  unfold integer? at h
  cases hx : x.toModel.unpack with
  | infinity | notANumber =>
    rw [hx] at h
    cases h
  | zero s =>
    rw [hx] at h
    exact .inl ⟨isZero_iff.2 ⟨s, hx⟩, (Option.some.inj h).symm⟩
  | finite s m e hm =>
    rw [hx] at h
    dsimp only at h
    -- the absolute value of the integer is some natural number `a`
    have hsigned {a : Nat} (ha : 0 < a) (hn : signed s a = n) :
        n.natAbs = a ∧ signed s n.natAbs = n ∧ n ≠ 0 := by
      subst hn
      cases s <;> simp [signed, ha.ne']
    refine .inr ⟨s, m, e, hm, hx, ?_⟩
    split at h
    next hneg =>
      obtain ⟨hdvd, h⟩ := Option.ite_none_right_eq_some.1 h
      obtain ⟨k, rfl⟩ : ∃ k : Nat, e = -k := ⟨e.natAbs, by omega⟩
      rw [Int.natAbs_neg, Int.natAbs_natCast] at hdvd h
      have hpow : Nat.pow 2 k = 2 ^ k := rfl
      rw [hpow] at hdvd h
      obtain ⟨a, rfl⟩ := Nat.dvd_of_mod_eq_zero hdvd
      rw [Nat.mul_div_cancel_left _ (Nat.two_pow_pos k)] at h
      obtain ⟨ha, hs, hn⟩ := hsigned (Nat.pos_of_mul_pos_left hm) (Option.some.inj h)
      rw [ha]
      refine ⟨?_, ha ▸ hs, ?_, hn⟩
      · rw [Nat.cast_mul, Nat.cast_pow, Nat.cast_ofNat, zpow_neg, zpow_natCast, mul_comm,
          inv_mul_cancel_left₀ (pow_ne_zero k two_ne_zero)]
      · rw [Nat.mul_comm]
        exact nearestBinary_mul_pow a k
    next hpos =>
      obtain ⟨k, rfl⟩ := Int.eq_ofNat_of_zero_le (not_lt.1 hpos)
      rw [Int.natAbs_natCast] at h
      have hpow : Nat.pow 2 k = 2 ^ k := rfl
      rw [hpow] at h
      obtain ⟨ha, hs, hn⟩ :=
        hsigned (Nat.mul_pos hm (Nat.two_pow_pos k)) (Option.some.inj h)
      rw [ha]
      refine ⟨by rw [zpow_natCast]; push_cast; rfl, ha ▸ hs, ?_, hn⟩
      rw [nearestBinary, if_neg hpos, Int.natAbs_natCast]
      rfl

theorem nearest?_of_integer? {x : Float} {n : Int} (h : integer? x = some n) :
    nearest? x = some n := by
  rcases integer?_eq_some h with ⟨hzero, rfl⟩ | ⟨s, m, e, hm, hparts, -, hsigned, hnearest, -⟩
  · obtain ⟨s, hs⟩ := isZero_iff.1 hzero
    have hs : x.toModel.unpack = .zero s := hs
    rw [nearest?, hs]
  · have hparts : x.toModel.unpack = .finite s m e hm := hparts
    rw [nearest?, hparts]
    dsimp only
    rw [hnearest, hsigned]

theorem alike_ofInt {x : Float} {n : Int} (h : integer? x = some n) (hn : n.natAbs < 2 ^ 53) :
    Alike x (Float.ofInt n) := by
  rcases integer?_eq_some h with ⟨hzero, rfl⟩ | ⟨s, m, e, hm, hparts, hvalue, hsigned, -, hne⟩
  · exact .inr ⟨hzero, by decide +kernel⟩
  · obtain ⟨s', k, hm', hparts', hsigned'⟩ := parts_ofInt hne hn
    have hpair : CanonicalPair m e := by
      have hcanonical := canonical_parts x
      rwa [hparts] at hcanonical
    have hpair' : CanonicalPair (n.natAbs * 2 ^ k) (-k) := by
      have hcanonical := canonical_parts (Float.ofInt n)
      rwa [hparts'] at hcanonical
    have hvalue' : ((n.natAbs * 2 ^ k : Nat) : ℚ) * 2 ^ (-k : Int) = n.natAbs := by
      rw [Nat.cast_mul, Nat.cast_pow, Nat.cast_ofNat, zpow_neg, zpow_natCast,
        mul_inv_cancel_right₀ (pow_ne_zero k two_ne_zero)]
    obtain ⟨rfl, rfl⟩ := hpair.eq hpair' (hvalue.trans hvalue'.symm)
    have hsign : s = s' := by
      have habs : (n.natAbs : Int) ≠ 0 := by exact_mod_cast (Int.natAbs_pos.2 hne).ne'
      rw [← hsigned'] at hsigned
      cases s <;> cases s' <;> simp only [signed] at hsigned <;> first | rfl | omega
    exact .inl (parts_injective (by rw [hparts, hparts', hsign]))

theorem neg_zero_alike_zero : Alike (-(Arithmetic.zero : Float)) Arithmetic.zero :=
  neg_zero_alike (by decide +kernel)

theorem natAbs_lt_of_isWord16 {n : Int} (h : IsWord16 n) : n.natAbs < 2 ^ 53 := by
  have hlow := h.1
  have hhigh := h.2
  omega

instance (library : Library) : ExactWords (Machine library) where
  neg_neg := neg_neg
  neg_zero := neg_zero_alike_zero
  alike_of_same := alike_of_same
  integer?_alike := integer?_alike
  nearest?_of_integer? := nearest?_of_integer?
  integer?_ofInt h := integer?_ofInt (natAbs_lt_of_isWord16 h)
  alike_ofInt h hn := alike_ofInt h (natAbs_lt_of_isWord16 hn)

end Number
end LineBasic
