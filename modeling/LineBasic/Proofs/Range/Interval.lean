import Mathlib.Algebra.Order.Group.Unbundled.Int
import LineBasic.Expr.Value
import LineBasic.Range.Integer

/-!
# Operations on intervals

The interval that an operation gives holds the results of the operation on the members of its
operands.
-/

namespace LineBasic.Interval

variable {a b : Int} {i j k : Interval}

theorem mem_point (n : Int) : n ∈ point n := ⟨Int.le_refl n, Int.le_refl n⟩

theorem mem_truth_iff : a ∈ truth ↔ a = -1 ∨ a = 0 := by
  show -1 ≤ a ∧ a ≤ 0 ↔ a = -1 ∨ a = 0
  omega

theorem mem_byte_of_le {n : Nat} (h : n ≤ 255) : (n : Int) ∈ byte :=
  ⟨Int.natCast_nonneg n, Int.ofNat_le.2 h⟩

theorem mem_hull_left (h : a ∈ i) (j : Interval) : a ∈ i.hull j :=
  ⟨(Int.min_le_left ..).trans h.1, h.2.trans (Int.le_max_left ..)⟩

theorem mem_hull_right (i : Interval) (h : a ∈ j) : a ∈ i.hull j :=
  ⟨(Int.min_le_right ..).trans h.1, h.2.trans (Int.le_max_right ..)⟩

theorem mem_of_isWithin (h : i.isWithin j = true) (ha : a ∈ i) : a ∈ j := by
  rw [isWithin, Bool.and_eq_true, decide_eq_true_iff, decide_eq_true_iff] at h
  exact ⟨h.1.trans ha.1, ha.2.trans h.2⟩

theorem eq_of_withinReach? {lo hi : Int} (h : withinReach? lo hi = some i) : i = ⟨lo, hi⟩ :=
  (Option.some.inj (Option.ite_none_right_eq_some.1 h).2).symm

theorem mem_of_withinReach? {lo hi : Int} (h : withinReach? lo hi = some i) (hlo : lo ≤ a)
    (hhi : a ≤ hi) : a ∈ i := by
  rw [eq_of_withinReach? h]
  exact ⟨hlo, hhi⟩

theorem eq_of_only? {n : Int} (h : i.only? = some n) (ha : a ∈ i) : a = n := by
  obtain ⟨hone, h⟩ := Option.ite_none_right_eq_some.1 h
  obtain rfl := Option.some.inj h
  exact Int.le_antisymm (hone ▸ ha.2) ha.1

theorem mem_negation? (h : i.negation? = some k) (ha : a ∈ i) : -a ∈ k :=
  mem_of_withinReach? h (Int.neg_le_neg ha.2) (Int.neg_le_neg ha.1)

theorem mem_complement? (h : i.complement? = some k) (ha : a ∈ i) : -a - 1 ∈ k := by
  rw [complement?] at h
  split at h
  next htruth =>
    obtain rfl := Option.some.inj h
    rw [mem_truth_iff]
    rcases mem_truth_iff.1 (mem_of_isWithin htruth ha) with rfl | rfl
    · exact .inr rfl
    · exact .inl rfl
  next =>
    obtain ⟨hlo, hhi⟩ := ha
    exact mem_of_withinReach? (Option.filter_eq_some_iff.1 h).1 (by omega) (by omega)

theorem mem_absolute (ha : a ∈ i) : |a| ∈ i.absolute := by
  obtain ⟨hlo, hhi⟩ := ha
  rw [Int.abs_eq_natAbs, mem_iff]
  constructor
  · show (if i.lo ≤ 0 ∧ 0 ≤ i.hi then 0 else min (i.lo.natAbs : Int) i.hi.natAbs) ≤ a.natAbs
    split <;> omega
  · show (a.natAbs : Int) ≤ max (i.lo.natAbs : Int) i.hi.natAbs
    omega

theorem mem_sum? (h : i.sum? j = some k) (ha : a ∈ i) (hb : b ∈ j) : a + b ∈ k :=
  mem_of_withinReach? h (Int.add_le_add ha.1 hb.1) (Int.add_le_add ha.2 hb.2)

theorem mem_difference? (h : i.difference? j = some k) (ha : a ∈ i) (hb : b ∈ j) : a - b ∈ k :=
  mem_of_withinReach? h (Int.sub_le_sub ha.1 hb.2) (Int.sub_le_sub ha.2 hb.1)

/-- A product is between those of the ends of one factor. -/
theorem mul_bounds {x y : Int} (hx : x ≤ a) (hy : a ≤ y) (b : Int) :
    min (x * b) (y * b) ≤ a * b ∧ a * b ≤ max (x * b) (y * b) := by
  rcases Int.le_total 0 b with hb | hb
  · exact ⟨(Int.min_le_left ..).trans (Int.mul_le_mul_of_nonneg_right hx hb),
      (Int.mul_le_mul_of_nonneg_right hy hb).trans (Int.le_max_right ..)⟩
  · exact ⟨(Int.min_le_right ..).trans (Int.mul_le_mul_of_nonpos_right hy hb),
      (Int.mul_le_mul_of_nonpos_right hx hb).trans (Int.le_max_left ..)⟩

theorem mem_product? (h : i.product? j = some k) (ha : a ∈ i) (hb : b ∈ j) : a * b ∈ k := by
  have outer := mul_bounds ha.1 ha.2 b
  have lower := mul_bounds hb.1 hb.2 i.lo
  have upper := mul_bounds hb.1 hb.2 i.hi
  simp only [Int.mul_comm _ i.lo, Int.mul_comm _ i.hi] at lower upper
  exact mem_of_withinReach? h (by omega) (by omega)

theorem eq_of_divisor? {d : Int} (h : j.divisor? = some d) (hb : b ∈ j) : b = d ∧ 0 < d := by
  obtain ⟨honly, hpos⟩ := Option.filter_eq_some_iff.1 h
  exact ⟨eq_of_only? honly hb, by simpa using hpos⟩

theorem mem_quotient? (h : i.quotient? j = some k) (ha : a ∈ i) (hb : b ∈ j) : a.tdiv b ∈ k := by
  obtain ⟨d, hd, rfl⟩ := Option.map_eq_some_iff.1 h
  obtain ⟨rfl, hpos⟩ := eq_of_divisor? hd hb
  exact ⟨Int.tdiv_le_tdiv hpos ha.1, Int.tdiv_le_tdiv hpos ha.2⟩

theorem mem_remainder? (h : i.remainder? j = some k) (ha : a ∈ i) (hb : b ∈ j) :
    a.tmod b ∈ k := by
  obtain ⟨d, hd, rfl⟩ := Option.map_eq_some_iff.1 h
  obtain ⟨rfl, hpos⟩ := eq_of_divisor? hd hb
  have hlt := Int.tmod_lt_of_pos a hpos
  have hgt := Int.lt_tmod_of_pos a hpos
  obtain ⟨hlo, hhi⟩ := ha
  constructor
  · show (if 0 ≤ i.lo then 0 else -(b - 1)) ≤ a.tmod b
    split
    next hnonneg => exact Int.tmod_nonneg b (hnonneg.trans hlo)
    next => omega
  · show a.tmod b ≤ if i.hi ≤ 0 then 0 else b - 1
    split
    next hnonpos =>
      have hneg := Int.tmod_nonneg b (Int.neg_nonneg_of_nonpos (hhi.trans hnonpos))
      rw [Int.neg_tmod] at hneg
      omega
    next => omega

/-! ## Logical operators -/

theorem bitwise_mem_word (op : BinaryOp) (a b : Int) : op.bitwise a b ∈ word := by
  have hmin : (-32768 : Int) ≤ op.bitwise a b := BitVec.le_toInt _
  have hmax : op.bitwise a b < 32768 := BitVec.toInt_lt
  exact ⟨hmin, Int.lt_add_one_iff.1 hmax⟩

theorem bitwise_mem_truth (op : BinaryOp) (ha : a ∈ truth) (hb : b ∈ truth) :
    op.bitwise a b ∈ truth := by
  rw [mem_truth_iff] at ha hb ⊢
  rcases ha with rfl | rfl <;> rcases hb with rfl | rfl <;> cases op <;> decide

/-- The bits that two words have in common make no greater number than either. -/
theorem bitwise_and_mem (ha : 0 ≤ a ∧ a ≤ 32767) (hb : 0 ≤ b ∧ b ≤ 32767) :
    0 ≤ BinaryOp.and.bitwise a b ∧ BinaryOp.and.bitwise a b ≤ min a b := by
  obtain ⟨m, rfl⟩ := Int.eq_ofNat_of_zero_le ha.1
  obtain ⟨n, rfl⟩ := Int.eq_ofNat_of_zero_le hb.1
  have hm : m % 2 ^ 16 = m := Nat.mod_eq_of_lt (by omega)
  have hn : n % 2 ^ 16 = n := Nat.mod_eq_of_lt (by omega)
  have hleft : m &&& n ≤ m := Nat.and_le_left
  have hright : m &&& n ≤ n := Nat.and_le_right
  have hbits : (BitVec.ofInt 16 m &&& BitVec.ofInt 16 n).toNat = m &&& n := by
    rw [BitVec.toNat_and, BitVec.ofInt_natCast, BitVec.ofInt_natCast, BitVec.toNat_ofNat,
      BitVec.toNat_ofNat, hm, hn]
  have hvalue : BinaryOp.and.bitwise m n = (m &&& n : Nat) := by
    show (BitVec.ofInt 16 m &&& BitVec.ofInt 16 n).toInt = _
    rw [BitVec.toInt_eq_toNat_of_lt (by omega), hbits]
  rw [hvalue]
  omega

theorem mem_logical? {op : BinaryOp} (h : i.logical? op j = some k) (ha : a ∈ i) (hb : b ∈ j)
    (haw : a ∈ word) (hbw : b ∈ word) : op.bitwise a b ∈ k := by
  rw [logical?] at h
  split at h
  next htruth =>
    obtain rfl := Option.some.inj h
    rw [Bool.and_eq_true] at htruth
    exact bitwise_mem_truth op (mem_of_isWithin htruth.1 ha) (mem_of_isWithin htruth.2 hb)
  next =>
    split at h
    next hand =>
      obtain ⟨rfl, hi, hj⟩ := hand
      obtain rfl := Option.some.inj h
      obtain ⟨hnonneg, hle⟩ :=
        bitwise_and_mem ⟨hi.trans ha.1, haw.2⟩ ⟨hj.trans hb.1, hbw.2⟩
      exact ⟨hnonneg, hle.trans (min_le_min ha.2 hb.2)⟩
    next =>
      obtain ⟨-, h⟩ := Option.ite_none_right_eq_some.1 h
      obtain rfl := Option.some.inj h
      exact bitwise_mem_word op a b

end LineBasic.Interval
