import LineBasic.Proofs.Expr.Value

/-!
# Reduction keeps integer values

In exact arithmetic, an expression of integers that has a value has the same value after reduction
(`Expr.evaluate?_reduce`). Each step of the reduction is a refinement (`Expr.Refines`): it may give
an expression a value that had none, since it drops operands, but it changes none. Logical operators
are read on 16-bit words, so that their identities are those of bit vectors.
-/

namespace LineBasic

/-! ## Words -/

namespace Arithmetic

theorem isWord16_iff {n : Int} : IsWord16 n ↔ ∃ x : BitVec 16, n = x.toInt := by
  constructor
  · intro h
    refine ⟨BitVec.ofInt 16 n, (BitVec.toInt_ofInt_eq_self (by decide) ?_ ?_).symm⟩
    · exact h.1
    · have := h.2
      omega
  · rintro ⟨x, rfl⟩
    have hlo := BitVec.le_toInt x
    have hhi := BitVec.toInt_lt (x := x)
    exact ⟨by omega, by omega⟩

theorem toInt_not (x : BitVec 16) : (~~~x).toInt = -x.toInt - 1 := by
  have hlt := x.isLt
  rw [BitVec.toInt_not, BitVec.toInt_eq_toNat_cond, Int.bmod_def]
  split <;> split <;> omega

end Arithmetic

theorem UnaryOp.result?_not_eq_some_iff {n m : Int} :
    UnaryOp.not.result? n = some m ↔ ∃ x : BitVec 16, n = x.toInt ∧ m = (~~~x).toInt := by
  have hword (w : Int) : Arithmetic.word? n = some w ↔ (∃ x : BitVec 16, n = x.toInt) ∧ w = n := by
    rw [Arithmetic.word?_int_eq_some_iff, Arithmetic.isWord16_iff]
  rw [UnaryOp.result?]
  simp only [Option.map_eq_some_iff, hword, Arithmetic.toInt_not]
  constructor
  · rintro ⟨w, ⟨⟨x, hx⟩, rfl⟩, rfl⟩
    exact ⟨x, hx, by rw [hx]; rfl⟩
  · rintro ⟨x, rfl, rfl⟩
    exact ⟨_, ⟨⟨x, rfl⟩, rfl⟩, rfl⟩

namespace BinaryOp

variable {op : BinaryOp} {a b : Int} {v : Value Int}

theorem applyNumbers?_logical_iff (h : op.isLogical) :
    op.applyNumbers? a b = some v ↔ ∃ x y : BitVec 16, a = x.toInt ∧ b = y.toInt ∧
      v = .number (op.bitwise x.toInt y.toInt) := by
  rw [applyNumbers?_words_iff (takesWords_of_isLogical h), Arithmetic.isWord16_iff,
    Arithmetic.isWord16_iff, applyWords?_of_isLogical h]
  constructor
  · rintro ⟨⟨x, rfl⟩, ⟨y, rfl⟩, w, hw, rfl⟩
    exact ⟨x, y, rfl, rfl, by rw [Option.some.inj hw]⟩
  · rintro ⟨x, y, rfl, rfl, rfl⟩
    exact ⟨⟨x, rfl⟩, ⟨y, rfl⟩, _, rfl, rfl⟩

theorem bitwise_and (x y : BitVec 16) : and.bitwise x.toInt y.toInt = (x &&& y).toInt := by
  simp only [bitwise, BitVec.ofInt_toInt]

theorem bitwise_or (x y : BitVec 16) : or.bitwise x.toInt y.toInt = (x ||| y).toInt := by
  simp only [bitwise, BitVec.ofInt_toInt]

theorem bitwise_xor (x y : BitVec 16) : xor.bitwise x.toInt y.toInt = (x ^^^ y).toInt := by
  simp only [bitwise, BitVec.ofInt_toInt]

/-! ### Laws of the operators -/

/-- The number on the right changes nothing. -/
def Neutral (op : BinaryOp) (n : Int) : Prop :=
  ∀ (a : Int) (v : Value Int), op.applyNumbers? a n = some v → v = .number a

/-- The number on the right leaves nothing else. -/
def Absorbing (op : BinaryOp) (n : Int) : Prop :=
  ∀ (a : Int) (v : Value Int), op.applyNumbers? a n = some v → v = .number n

def Idempotent (op : BinaryOp) : Prop :=
  ∀ (a : Int) (v : Value Int), op.applyNumbers? a a = some v → v = .number a

/-- A number with itself gives zero. -/
def Cancelling (op : BinaryOp) : Prop :=
  ∀ (a : Int) (v : Value Int), op.applyNumbers? a a = some v → v = .number 0

theorem neutral_add : add.Neutral 0 := by
  intro a v h
  rw [applyNumbers?_add, Int.add_zero] at h
  exact (Option.some.inj h).symm

theorem neutral_sub : sub.Neutral 0 := by
  intro a v h
  rw [applyNumbers?_sub, Int.sub_zero] at h
  exact (Option.some.inj h).symm

theorem cancelling_sub : sub.Cancelling := by
  intro a v h
  rw [applyNumbers?_sub, Int.sub_self] at h
  exact (Option.some.inj h).symm

theorem neutral_mul : mul.Neutral 1 := by
  intro a v h
  rw [applyNumbers?_mul, Int.mul_one] at h
  exact (Option.some.inj h).symm

theorem absorbing_mul : mul.Absorbing 0 := by
  intro a v h
  rw [applyNumbers?_mul, Int.mul_zero] at h
  exact (Option.some.inj h).symm

theorem neutral_intDiv : intDiv.Neutral 1 := by
  intro a v h
  obtain ⟨-, -, w, hw, rfl⟩ := (applyNumbers?_words_iff rfl).1 h
  have hquotient : some (a.tdiv 1) = some w := hw
  rw [← Option.some.inj hquotient, Int.tdiv_one]

theorem absorbing_and : and.Absorbing 0 := by
  intro a v h
  obtain ⟨x, y, -, hy, rfl⟩ := (applyNumbers?_logical_iff rfl).1 h
  have hy0 : y = 0#16 := BitVec.eq_of_toInt_eq hy.symm
  rw [bitwise_and, hy0, BitVec.and_zero]
  rfl

theorem neutral_and : and.Neutral (-1) := by
  intro a v h
  obtain ⟨x, y, rfl, hy, rfl⟩ := (applyNumbers?_logical_iff rfl).1 h
  have hy1 : y = BitVec.allOnes 16 := BitVec.eq_of_toInt_eq hy.symm
  rw [bitwise_and, hy1, BitVec.and_allOnes]

theorem idempotent_and : and.Idempotent := by
  intro a v h
  obtain ⟨x, y, rfl, hy, rfl⟩ := (applyNumbers?_logical_iff rfl).1 h
  rw [← hy, bitwise_and, BitVec.and_self]

theorem neutral_or : or.Neutral 0 := by
  intro a v h
  obtain ⟨x, y, rfl, hy, rfl⟩ := (applyNumbers?_logical_iff rfl).1 h
  have hy0 : y = 0#16 := BitVec.eq_of_toInt_eq hy.symm
  rw [bitwise_or, hy0, BitVec.or_zero]

theorem absorbing_or : or.Absorbing (-1) := by
  intro a v h
  obtain ⟨x, y, -, hy, rfl⟩ := (applyNumbers?_logical_iff rfl).1 h
  have hy1 : y = BitVec.allOnes 16 := BitVec.eq_of_toInt_eq hy.symm
  rw [bitwise_or, hy1, BitVec.or_allOnes]
  rfl

theorem idempotent_or : or.Idempotent := by
  intro a v h
  obtain ⟨x, y, rfl, hy, rfl⟩ := (applyNumbers?_logical_iff rfl).1 h
  rw [← hy, bitwise_or, BitVec.or_self]

theorem neutral_xor : xor.Neutral 0 := by
  intro a v h
  obtain ⟨x, y, rfl, hy, rfl⟩ := (applyNumbers?_logical_iff rfl).1 h
  have hy0 : y = 0#16 := BitVec.eq_of_toInt_eq hy.symm
  rw [bitwise_xor, hy0, BitVec.xor_zero]

theorem cancelling_xor : xor.Cancelling := by
  intro a v h
  obtain ⟨x, y, rfl, hy, rfl⟩ := (applyNumbers?_logical_iff rfl).1 h
  rw [← hy, bitwise_xor, BitVec.xor_self]
  rfl

/-- `AND` and `OR`, each with the other. -/
def IsDual (op dual : BinaryOp) : Prop := op = and ∧ dual = or ∨ op = or ∧ dual = and

theorem absorption {dual : BinaryOp} (h : IsDual op dual) {c : Int}
    (hc : dual.applyNumbers? a b = some (.number c)) (hv : op.applyNumbers? c a = some v) :
    v = .number a := by
  rcases h with ⟨rfl, rfl⟩ | ⟨rfl, rfl⟩
  · obtain ⟨x, y, rfl, rfl, hxy⟩ := (applyNumbers?_logical_iff rfl).1 hc
    obtain ⟨z, w, rfl, hw, rfl⟩ := (applyNumbers?_logical_iff rfl).1 hv
    have hz : z = x ||| y := BitVec.eq_of_toInt_eq (bitwise_or x y ▸ Value.number.inj hxy)
    rw [← hw, bitwise_and, hz]
    congr 2
    ext i hi
    simp
    grind
  · obtain ⟨x, y, rfl, rfl, hxy⟩ := (applyNumbers?_logical_iff rfl).1 hc
    obtain ⟨z, w, rfl, hw, rfl⟩ := (applyNumbers?_logical_iff rfl).1 hv
    have hz : z = x &&& y := BitVec.eq_of_toInt_eq (bitwise_and x y ▸ Value.number.inj hxy)
    rw [← hw, bitwise_or, hz]
    congr 2
    ext i hi
    simp
    grind

theorem isCommutative_of_isDual {dual : BinaryOp} (h : IsDual op dual) :
    op.isCommutative ∧ dual.isCommutative := by
  rcases h with ⟨rfl, rfl⟩ | ⟨rfl, rfl⟩ <;> exact ⟨rfl, rfl⟩

/-! ### Inverted relations -/

/-- The inverted relation holds exactly where the relation fails. -/
theorem accepts_inverted_int {inverse : BinaryOp} (h : op.inverted? = some inverse) (a b : Int) :
    inverse.accepts (a == b) (decide (a < b)) (decide (b < a)) =
      !op.accepts (a == b) (decide (a < b)) (decide (b < a)) := by
  refine accepts_inverted h ?_
  rcases lt_trichotomy a b with hab | rfl | hab
  · exact .inr (.inl (by simp [hab, hab.ne, hab.le]))
  · exact .inl (by simp)
  · exact .inr (.inr (by simp [hab, hab.ne', hab.le]))

theorem isRelational_of_inverted? {inverse : BinaryOp} (h : op.inverted? = some inverse) :
    op.isRelational ∧ inverse.isRelational := by
  cases op <;> cases h <;> exact ⟨rfl, rfl⟩

end BinaryOp

namespace Expr

variable {value : String → Option Int} {boolean : Bool} {d e left right result : Expr Int}

/-- The second expression is one of integers as well, and has the value of the first one if that
has one. -/
structure Refines (value : String → Option Int) (d e : Expr Int) : Prop where
  isInteger : e.IsInteger
  evaluate? : ∀ {v}, d.evaluate? value = some v → e.evaluate? value = some v

theorem Refines.refl (h : e.IsInteger) : Refines value e e := ⟨h, id⟩

theorem Refines.trans {c : Expr Int} (h : Refines value c d) (h' : Refines value d e) :
    Refines value c e :=
  ⟨h'.isInteger, fun hv => h'.evaluate? (h.evaluate? hv)⟩

theorem Refines.unary (op : UnaryOp) (h : Refines value d e) :
    Refines value (.unary op d) (.unary op e) where
  isInteger := by
    rw [IsInteger]
    exact h.isInteger
  evaluate? hv := by
    rw [evaluate?_unary_eq_some_iff] at hv ⊢
    obtain ⟨n, m, hn, hm⟩ := hv
    exact ⟨n, m, h.evaluate? hn, hm⟩

theorem Refines.binary {op : BinaryOp} {d' e' : Expr Int} (hdiv : op ≠ .div) (hpow : op ≠ .pow)
    (hd : Refines value d d') (he : Refines value e e') :
    Refines value (.binary op d e) (.binary op d' e') where
  isInteger := by
    rw [IsInteger]
    exact ⟨hdiv, hpow, hd.isInteger, he.isInteger⟩
  evaluate? hv := by
    rw [evaluate?_binary_eq_some_iff] at hv ⊢
    obtain ⟨x, y, hx, hy, hv⟩ := hv
    exact ⟨x, y, hd.evaluate? hx, he.evaluate? hy, hv⟩

/-! ## Constants -/

theorem eq_some_of_isNumber {c : Option Int} {n : Int} (h : isNumber c n) : c = some n := by
  rcases c with _ | m
  · cases h
  · obtain rfl : m = n := by simpa [isNumber] using h
    rfl

/-- The value of an operand that is folded to a number. -/
theorem eq_of_isNumber {n a : Int} (h : isNumber e.constantNumber? n)
    (ha : e.evaluate? value = some (.number a)) : a = n := by
  have hconstant := evaluate?_of_constantNumber? (eq_some_of_isNumber h) value
  exact Value.number.inj (Option.some.inj (ha.symm.trans hconstant))

theorem refines_toExpr {v : Value Int} (he : e.IsInteger) (h : e.constant? = some v) :
    Refines value e v.toExpr := by
  obtain ⟨n, rfl⟩ := he.exists_number h
  refine ⟨trivial, fun {w} hw => ?_⟩
  obtain rfl : Value.number n = w :=
    Option.some.inj ((evaluate?_of_constant? h value).symm.trans hw)
  rfl

/-- The sum of an operand with itself has the value of its product with two. -/
theorem evaluate?_twice {a : Int} (h : e.evaluate? value = some (.number a)) :
    (Expr.binary .add e e).evaluate? value = some (.number (a * 2)) := by
  rw [mul_two]
  exact evaluate?_binary_eq_some_iff.2 ⟨_, _, h, h, BinaryOp.applyNumbers?_add a a⟩

/-! ## The rules of binary operators -/

section Rules

variable {op : BinaryOp} (hl : left.IsInteger) (hr : right.IsInteger) {identity : Identity}
include hl hr

/-- A binary expression of integers is refined by what has the value that the operator gives. -/
theorem refines_of_binary (hresult : result.IsInteger)
    (h : ∀ {a b v}, left.evaluate? value = some (.number a) →
      right.evaluate? value = some (.number b) → op.applyNumbers? a b = some v →
      result.evaluate? value = some v) :
    Refines value (.binary op left right) result where
  isInteger := hresult
  evaluate? hv := by
    obtain ⟨a, b, ha, hb, hv⟩ := (hl.evaluate?_binary_iff hr).1 hv
    exact h ha hb hv

theorem refines_left (h : ∀ {a b v}, left.evaluate? value = some (.number a) →
      right.evaluate? value = some (.number b) → op.applyNumbers? a b = some v → v = .number a) :
    Refines value (.binary op left right) left :=
  refines_of_binary hl hr hl fun ha hb hv => h ha hb hv ▸ ha

theorem refines_right (h : ∀ {a b v}, left.evaluate? value = some (.number a) →
      right.evaluate? value = some (.number b) → op.applyNumbers? a b = some v → v = .number b) :
    Refines value (.binary op left right) right :=
  refines_of_binary hl hr hr fun ha hb hv => h ha hb hv ▸ hb

theorem refines_ofInt {n : Int} (h : ∀ {a b v}, left.evaluate? value = some (.number a) →
      right.evaluate? value = some (.number b) → op.applyNumbers? a b = some v → v = .number n) :
    Refines value (.binary op left right) (.ofInt n) :=
  refines_of_binary hl hr trivial fun ha hb hv => h ha hb hv ▸ rfl

/-- Operands that are found to be the same have the same value. -/
theorem eq_of_same {a b : Int} (h : (left.isPure && right.isPure && left.key == right.key) = true)
    (ha : left.evaluate? value = some (.number a))
    (hb : right.evaluate? value = some (.number b)) : a = b := by
  rw [Bool.and_eq_true, beq_iff_eq] at h
  rw [hl.evaluate?_eq_of_key_eq hr h.2, hb] at ha
  exact (Value.number.inj (Option.some.inj ha)).symm

theorem refines_of_neutral {n : Int} (hop : op.Neutral n) (h : isNumber right.constantNumber? n) :
    Refines value (.binary op left right) left :=
  refines_left hl hr fun _ hb hv => hop _ _ (eq_of_isNumber h hb ▸ hv)

theorem refines_of_neutral_left {n : Int} (hcomm : op.isCommutative) (hop : op.Neutral n)
    (h : isNumber left.constantNumber? n) : Refines value (.binary op left right) right := by
  refine refines_right hl hr fun ha _ hv => ?_
  rw [BinaryOp.applyNumbers?_comm hcomm, eq_of_isNumber h ha] at hv
  exact hop _ _ hv

theorem refines_of_absorbing {n : Int} (hop : op.Absorbing n)
    (h : isNumber right.constantNumber? n) : Refines value (.binary op left right) (.ofInt n) :=
  refines_ofInt hl hr fun _ hb hv => hop _ _ (eq_of_isNumber h hb ▸ hv)

theorem refines_of_absorbing_left {n : Int} (hcomm : op.isCommutative) (hop : op.Absorbing n)
    (h : isNumber left.constantNumber? n) : Refines value (.binary op left right) (.ofInt n) := by
  refine refines_ofInt hl hr fun ha _ hv => ?_
  rw [BinaryOp.applyNumbers?_comm hcomm, eq_of_isNumber h ha] at hv
  exact hop _ _ hv

theorem refines_of_idempotent (hop : op.Idempotent)
    (h : (left.isPure && right.isPure && left.key == right.key) = true) :
    Refines value (.binary op left right) left :=
  refines_left hl hr fun ha hb hv => hop _ _ (eq_of_same hl hr h ha hb ▸ hv)

theorem refines_of_cancelling (hop : op.Cancelling)
    (h : (left.isPure && right.isPure && left.key == right.key) = true) :
    Refines value (.binary op left right) (.ofInt 0) :=
  refines_ofInt hl hr fun ha hb hv => hop _ _ (eq_of_same hl hr h ha hb ▸ hv)

theorem refines_of_step_mul (h : binaryStep boolean .mul left right = .replace result identity) :
    Refines value (.binary .mul left right) result := by
  rw [binaryStep] at h
  dsimp only at h
  split at h
  next hc =>
    cases h
    rw [Bool.and_eq_true] at hc
    exact refines_of_absorbing hl hr BinaryOp.absorbing_mul hc.1
  split at h
  next hc =>
    cases h
    rw [Bool.and_eq_true] at hc
    exact refines_of_absorbing_left hl hr rfl BinaryOp.absorbing_mul hc.1
  split at h
  next hc =>
    cases h
    exact refines_of_neutral hl hr BinaryOp.neutral_mul hc
  split at h
  next hc =>
    cases h
    exact refines_of_neutral_left hl hr rfl BinaryOp.neutral_mul hc
  split at h
  next hc =>
    cases h
    rw [Bool.and_eq_true] at hc
    refine refines_of_binary hl hr ⟨nofun, nofun, hl, hl⟩ fun ha hb hv => ?_
    rw [eq_of_isNumber hc.1 hb] at hv
    exact (evaluate?_twice ha).trans hv
  split at h
  next hc =>
    cases h
    rw [Bool.and_eq_true] at hc
    refine refines_of_binary hl hr ⟨nofun, nofun, hr, hr⟩ fun ha hb hv => ?_
    rw [eq_of_isNumber hc.1 ha, BinaryOp.applyNumbers?_comm rfl] at hv
    exact (evaluate?_twice hb).trans hv
  -- what is left over is a remark about a shift at most
  split at h
  next =>
    split at h <;> cases h
  next => cases h

theorem refines_of_step_intDiv
    (h : binaryStep boolean .intDiv left right = .replace result identity) :
    Refines value (.binary .intDiv left right) result := by
  rw [binaryStep] at h
  split at h
  next hc =>
    cases h
    exact refines_of_neutral hl hr BinaryOp.neutral_intDiv hc
  next =>
    split at h
    next => split at h <;> cases h
    next => cases h

theorem refines_of_step_add (h : binaryStep boolean .add left right = .replace result identity) :
    Refines value (.binary .add left right) result := by
  rw [binaryStep] at h
  split at h
  next hc =>
    cases h
    exact refines_of_neutral hl hr BinaryOp.neutral_add hc
  split at h
  next hc =>
    cases h
    exact refines_of_neutral_left hl hr rfl BinaryOp.neutral_add hc
  next => cases h

theorem refines_of_step_sub (h : binaryStep boolean .sub left right = .replace result identity) :
    Refines value (.binary .sub left right) result := by
  rw [binaryStep] at h
  split at h
  next hc =>
    cases h
    exact refines_of_neutral hl hr BinaryOp.neutral_sub hc
  split at h
  next hc =>
    cases h
    exact refines_of_cancelling hl hr BinaryOp.cancelling_sub hc
  next => cases h

theorem refines_of_absorb? {dual : BinaryOp} {kept : Expr Int} (hdual : BinaryOp.IsDual op dual)
    (h : absorb? dual left right = some kept) : Refines value (.binary op left right) kept := by
  have hcomm := BinaryOp.isCommutative_of_isDual hdual
  -- the value of an operand that also is an operand of the other one
  have absorbed {compound single : Expr Int} {c a : Int} {v : Value Int}
      (hcompound : compound.IsInteger) (hsingle : single.IsInteger)
      (habsorbs : absorbs dual compound single)
      (hc : compound.evaluate? value = some (.number c))
      (ha : single.evaluate? value = some (.number a)) (hv : op.applyNumbers? c a = some v) :
      v = .number a := by
    cases compound with
    | binary inner l r =>
      simp only [absorbs, Bool.and_eq_true, Bool.or_eq_true, beq_iff_eq] at habsorbs
      obtain ⟨⟨rfl, -⟩, hkey⟩ := habsorbs
      rw [IsInteger] at hcompound
      obtain ⟨-, -, hli, hri⟩ := hcompound
      obtain ⟨x, y, hx, hy, hxy⟩ := (hli.evaluate?_binary_iff hri).1 hc
      rcases hkey with hkey | hkey
      · rw [hli.evaluate?_eq_of_key_eq hsingle hkey, ha] at hx
        obtain rfl := Value.number.inj (Option.some.inj hx)
        exact BinaryOp.absorption hdual hxy hv
      · rw [hri.evaluate?_eq_of_key_eq hsingle hkey, ha] at hy
        obtain rfl := Value.number.inj (Option.some.inj hy)
        rw [BinaryOp.applyNumbers?_comm hcomm.2] at hxy
        exact BinaryOp.absorption hdual hxy hv
    | _ => cases habsorbs
  rw [absorb?] at h
  split at h
  next => cases h
  split at h
  next habsorbs =>
    obtain rfl := Option.some.inj h
    exact refines_right hl hr fun ha hb hv => absorbed hl hr habsorbs ha hb hv
  split at h
  next habsorbs =>
    obtain rfl := Option.some.inj h
    refine refines_left hl hr fun ha hb hv => absorbed hr hl habsorbs hb ha ?_
    rwa [BinaryOp.applyNumbers?_comm hcomm.1]
  next => cases h

theorem refines_of_step_and (h : binaryStep boolean .and left right = .replace result identity) :
    Refines value (.binary .and left right) result := by
  rw [binaryStep] at h
  split at h
  next hc =>
    cases h
    simp only [Bool.or_eq_true, Bool.and_eq_true] at hc
    rcases hc with ⟨hc, -⟩ | ⟨hc, -⟩
    · exact refines_of_absorbing hl hr BinaryOp.absorbing_and hc
    · exact refines_of_absorbing_left hl hr rfl BinaryOp.absorbing_and hc
  split at h
  next hc =>
    cases h
    exact refines_of_neutral hl hr BinaryOp.neutral_and hc
  split at h
  next hc =>
    cases h
    exact refines_of_neutral_left hl hr rfl BinaryOp.neutral_and hc
  split at h
  next hc =>
    cases h
    exact refines_of_idempotent hl hr BinaryOp.idempotent_and hc
  split at h
  next =>
    split at h
    next habsorb =>
      cases h
      exact refines_of_absorb? hl hr (.inl ⟨rfl, rfl⟩) habsorb
    next => cases h
  next => cases h

theorem refines_of_step_or (h : binaryStep boolean .or left right = .replace result identity) :
    Refines value (.binary .or left right) result := by
  rw [binaryStep] at h
  split at h
  next hc =>
    cases h
    simp only [Bool.or_eq_true, Bool.and_eq_true] at hc
    rcases hc with ⟨hc, -⟩ | ⟨hc, -⟩
    · exact refines_of_absorbing hl hr BinaryOp.absorbing_or hc
    · exact refines_of_absorbing_left hl hr rfl BinaryOp.absorbing_or hc
  split at h
  next hc =>
    cases h
    exact refines_of_neutral hl hr BinaryOp.neutral_or hc
  split at h
  next hc =>
    cases h
    exact refines_of_neutral_left hl hr rfl BinaryOp.neutral_or hc
  split at h
  next hc =>
    cases h
    exact refines_of_idempotent hl hr BinaryOp.idempotent_or hc
  split at h
  next =>
    split at h
    next habsorb =>
      cases h
      exact refines_of_absorb? hl hr (.inr ⟨rfl, rfl⟩) habsorb
    next => cases h
  next => cases h

theorem refines_of_step_xor (h : binaryStep boolean .xor left right = .replace result identity) :
    Refines value (.binary .xor left right) result := by
  rw [binaryStep] at h
  split at h
  next hc =>
    cases h
    exact refines_of_neutral hl hr BinaryOp.neutral_xor hc
  split at h
  next hc =>
    cases h
    exact refines_of_neutral_left hl hr rfl BinaryOp.neutral_xor hc
  split at h
  next hc =>
    cases h
    exact refines_of_cancelling hl hr BinaryOp.cancelling_xor hc
  next => cases h

theorem refines_of_binaryStep (hdiv : op ≠ .div) (hpow : op ≠ .pow)
    (h : binaryStep boolean op left right = .replace result identity) :
    Refines value (.binary op left right) result := by
  cases op with
  | mul => exact refines_of_step_mul hl hr h
  | intDiv => exact refines_of_step_intDiv hl hr h
  | add => exact refines_of_step_add hl hr h
  | sub => exact refines_of_step_sub hl hr h
  | and => exact refines_of_step_and hl hr h
  | or => exact refines_of_step_or hl hr h
  | xor => exact refines_of_step_xor hl hr h
  | div => exact absurd rfl hdiv
  | pow => exact absurd rfl hpow
  | _ => cases h

theorem refines_reduceBinary (boolean : Bool) (hdiv : op ≠ .div) (hpow : op ≠ .pow) :
    Refines value (.binary op left right) (reduceBinary boolean op left right).1 := by
  have hbinary : (Expr.binary op left right).IsInteger := by
    rw [IsInteger]
    exact ⟨hdiv, hpow, hl, hr⟩
  rw [reduceBinary]
  split
  next hconstant => exact refines_toExpr hbinary hconstant
  next =>
    split
    next => exact .refl hbinary
    next => exact .refl hbinary
    next hstep => exact refines_of_binaryStep hl hr hdiv hpow hstep

end Rules

/-! ## Unary operators -/

/-- The complement of an operand, if it has one, is the value of `NOT`. -/
theorem evaluate?_not_eq_some_iff {v : Value Int} :
    (Expr.unary .not e).evaluate? value = some v ↔ ∃ x : BitVec 16,
      e.evaluate? value = some (.number x.toInt) ∧ v = .number (~~~x).toInt := by
  rw [evaluate?_unary_eq_some_iff]
  constructor
  · rintro ⟨n, m, hn, hm, rfl⟩
    obtain ⟨x, rfl, rfl⟩ := UnaryOp.result?_not_eq_some_iff.1 hm
    exact ⟨x, hn, rfl⟩
  · rintro ⟨x, hx, rfl⟩
    exact ⟨_, _, hx, UnaryOp.result?_not_eq_some_iff.2 ⟨x, rfl, rfl⟩, rfl⟩

/-- Double operators of one kind have no effect. -/
theorem evaluate?_of_twice {op : UnaryOp} {v : Value Int}
    (h : (Expr.unary op (.unary op e)).evaluate? value = some v) :
    e.evaluate? value = some v := by
  cases op with
  | neg =>
    obtain ⟨n, m, hn, hm, rfl⟩ := evaluate?_unary_eq_some_iff.1 h
    obtain ⟨k, l, hk, hl, hkl⟩ := evaluate?_unary_eq_some_iff.1 hn
    obtain rfl := Value.number.inj hkl
    obtain rfl : -k = n := Option.some.inj hl
    obtain rfl : - -k = m := Option.some.inj hm
    rw [hk, Int.neg_neg]
  | not =>
    obtain ⟨x, hx, rfl⟩ := evaluate?_not_eq_some_iff.1 h
    obtain ⟨y, hy, hxy⟩ := evaluate?_not_eq_some_iff.1 hx
    have hx : x = ~~~y := BitVec.eq_of_toInt_eq (Value.number.inj hxy)
    rw [hy, hx, BitVec.not_not]

theorem refines_inverted {op inverse : BinaryOp} (hl : left.IsInteger) (hr : right.IsInteger)
    (h : op.inverted? = some inverse) :
    Refines value (.unary .not (.binary op left right)) (.binary inverse left right) := by
  obtain ⟨hop, hinverse⟩ := BinaryOp.isRelational_of_inverted? h
  refine ⟨?_, fun hv => ?_⟩
  · rw [IsInteger]
    refine ⟨?_, ?_, hl, hr⟩ <;> rintro rfl <;> cases hinverse
  · obtain ⟨x, hx, rfl⟩ := evaluate?_not_eq_some_iff.1 hv
    obtain ⟨a, b, ha, hb, hab⟩ := (hl.evaluate?_binary_iff hr).1 hx
    refine (hl.evaluate?_binary_iff hr).2 ⟨a, b, ha, hb, ?_⟩
    rw [BinaryOp.applyNumbers?_relational hop] at hab
    rw [BinaryOp.applyNumbers?_relational hinverse, BinaryOp.accepts_inverted_int h]
    have htruth := Value.number.inj (Option.some.inj hab)
    rw [Arithmetic.truth_int] at htruth
    rw [Arithmetic.toInt_not, ← htruth, Value.truth, Arithmetic.truth_int]
    cases op.accepts (a == b) (decide (a < b)) (decide (b < a)) <;> rfl

theorem refines_deMorgan {op dual : BinaryOp} {left' right' : Expr Int} (hl : left.IsInteger)
    (hr : right.IsInteger) (hdual : BinaryOp.IsDual op dual)
    (hleft : Refines value (.unary .not left) left')
    (hright : Refines value (.unary .not right) right') :
    Refines value (.unary .not (.binary op left right)) (.binary dual left' right') := by
  have hop : op.isLogical ∧ dual.isLogical ∧ dual ≠ .div ∧ dual ≠ .pow := by
    rcases hdual with ⟨rfl, rfl⟩ | ⟨rfl, rfl⟩ <;> exact ⟨rfl, rfl, nofun, nofun⟩
  refine ⟨?_, fun hv => ?_⟩
  · rw [IsInteger]
    exact ⟨hop.2.2.1, hop.2.2.2, hleft.isInteger, hright.isInteger⟩
  · obtain ⟨x, hx, rfl⟩ := evaluate?_not_eq_some_iff.1 hv
    obtain ⟨a, b, ha, hb, hab⟩ := (hl.evaluate?_binary_iff hr).1 hx
    obtain ⟨p, q, rfl, rfl, hpq⟩ := (BinaryOp.applyNumbers?_logical_iff hop.1).1 hab
    have hp := hleft.evaluate? (evaluate?_not_eq_some_iff.2 ⟨p, ha, rfl⟩)
    have hq := hright.evaluate? (evaluate?_not_eq_some_iff.2 ⟨q, hb, rfl⟩)
    refine (hleft.isInteger.evaluate?_binary_iff hright.isInteger).2 ⟨_, _, hp, hq, ?_⟩
    refine (BinaryOp.applyNumbers?_logical_iff hop.2.1).2 ⟨_, _, rfl, rfl, ?_⟩
    rcases hdual with ⟨rfl, rfl⟩ | ⟨rfl, rfl⟩
    · have hx : x = p &&& q :=
        BitVec.eq_of_toInt_eq (BinaryOp.bitwise_and p q ▸ Value.number.inj hpq)
      rw [BinaryOp.bitwise_or, hx, BitVec.not_and]
    · have hx : x = p ||| q :=
        BitVec.eq_of_toInt_eq (BinaryOp.bitwise_or p q ▸ Value.number.inj hpq)
      rw [BinaryOp.bitwise_and, hx, BitVec.not_or]

/-- The value of a unary operator on an operand that is folded. -/
theorem exists_result?_of_constantNumber? {op : UnaryOp} {n : Int} {v : Value Int}
    (h : e.constantNumber? = some n) (hv : (Expr.unary op e).evaluate? value = some v) :
    ∃ m, op.result? n = some m ∧ v = .number m := by
  obtain ⟨a, m, ha, hm, rfl⟩ := evaluate?_unary_eq_some_iff.1 hv
  have hconstant := evaluate?_of_constantNumber? h value
  obtain rfl : n = a := Value.number.inj (Option.some.inj (hconstant.symm.trans ha))
  exact ⟨m, hm, rfl⟩

theorem refines_negate (he : e.IsInteger) : Refines value (.unary .neg e) (negate e).1 := by
  rw [negate]
  split
  next n hconstant =>
    split
    next hzero =>
      obtain rfl : n = 0 := eq_of_beq hzero
      refine ⟨trivial, fun hv => ?_⟩
      obtain ⟨m, hm, rfl⟩ := exists_result?_of_constantNumber? hconstant hv
      exact congrArg (fun m => some (Value.number m)) (Option.some.inj hm)
    next =>
      refine ⟨trivial, fun hv => ?_⟩
      obtain ⟨m, hm, rfl⟩ := exists_result?_of_constantNumber? hconstant hv
      exact congrArg (fun m => some (Value.number m)) (Option.some.inj hm)
  next => exact .refl he

theorem refines_complement (boolean : Bool) (he : e.IsInteger) :
    Refines value (.unary .not e) (complement boolean e).1 := by
  fun_induction complement boolean e with
  | case1 e boolean before n hconstant hzero =>
    obtain rfl : n = 0 := eq_of_beq hzero
    refine ⟨trivial, fun hv => ?_⟩
    obtain ⟨m, hm, rfl⟩ := exists_result?_of_constantNumber? hconstant hv
    exact congrArg (fun m => some (Value.number m)) (Option.some.inj hm)
  | case2 e boolean before n hconstant _ hone =>
    obtain rfl : n = -1 := Option.some.inj (eq_some_of_isNumber hone)
    refine ⟨trivial, fun hv => ?_⟩
    obtain ⟨m, hm, rfl⟩ := exists_result?_of_constantNumber? hconstant hv
    exact congrArg (fun m => some (Value.number m)) (Option.some.inj hm)
  | case3 e boolean before n hconstant =>
    rcases hresult : UnaryOp.not.result? n with _ | m
    · exact .refl he
    · refine ⟨trivial, fun hv => ?_⟩
      obtain ⟨m', hm, rfl⟩ := exists_result?_of_constantNumber? hconstant hv
      exact congrArg (fun m => some (Value.number m)) (Option.some.inj (hresult.symm.trans hm))
  | case4 left right before _ ihl ihr =>
    rw [IsInteger] at he
    exact refines_deMorgan he.2.2.1 he.2.2.2 (.inl ⟨rfl, rfl⟩) (ihl he.2.2.1) (ihr he.2.2.2)
  | case5 left right before _ ihl ihr =>
    rw [IsInteger] at he
    exact refines_deMorgan he.2.2.1 he.2.2.2 (.inr ⟨rfl, rfl⟩) (ihl he.2.2.1) (ihr he.2.2.2)
  | case6 op left right _ _ inverse hinverse =>
    rw [IsInteger] at he
    exact refines_inverted he.2.2.1 he.2.2.2 hinverse
  | case7 => exact .refl he
  | case8 => exact .refl he

/-! ## Runs of unary operators -/

/-- The expression that a run stands for. -/
def Run.toExpr (run : Run Int) : Expr Int :=
  run.operator.elim run.operand fun (op, n) => wrap op n run.operand

/-- The run stands for a refinement of the expression, and has operators if it has one. -/
structure Run.Refines (value : String → Option Int) (e : Expr Int) (run : Run Int) : Prop where
  isInteger : run.operand.IsInteger
  toExpr : Expr.Refines value e run.toExpr

/-- Pairs of operators cancel. -/
theorem evaluate?_wrap_mod_two {op : UnaryOp} {n : Nat} {v : Value Int}
    (h : (wrap op n e).evaluate? value = some v) :
    (wrap op (n % 2) e).evaluate? value = some v := by
  induction n using Nat.twoStepInduction with
  | zero => exact h
  | one => exact h
  | more n ih _ =>
    rw [Nat.add_mod_right]
    exact ih (evaluate?_of_twice h)

theorem Run.Refines.finish {run : Run Int} (boolean : Bool) (h : run.Refines value e) :
    Expr.Refines value e (run.finish boolean).1 := by
  have hrun := h.toExpr
  rw [Run.toExpr] at hrun
  rw [Run.finish]
  split
  next hoperator => rwa [hoperator] at hrun
  next op n hoperator =>
    rw [hoperator, Option.elim_some] at hrun
    dsimp only
    split
    next heven =>
      refine ⟨h.isInteger, fun hv => ?_⟩
      have hcancel := evaluate?_wrap_mod_two (hrun.evaluate? hv)
      rwa [heven] at hcancel
    next hodd =>
      have hone : Expr.Refines value e (.unary op run.operand) := by
        refine ⟨by rw [IsInteger]; exact h.isInteger, fun hv => ?_⟩
        have hcancel := evaluate?_wrap_mod_two (hrun.evaluate? hv)
        rwa [Nat.mod_two_ne_zero.1 hodd] at hcancel
      cases op with
      | neg => exact hone.trans (refines_negate h.isInteger)
      | not => exact hone.trans (refines_complement boolean h.isInteger)

theorem Run.Refines.extend {run : Run Int} (boolean : Bool) (op : UnaryOp)
    (h : run.Refines value e) : (run.extend boolean op).Refines value (.unary op e) := by
  have alone : Run.Refines value (.unary op e)
      ⟨some (op, 1), (run.finish boolean).1, (run.finish boolean).2⟩ :=
    ⟨(h.finish boolean).isInteger, (h.finish boolean).unary op⟩
  have hrun := h.toExpr
  rw [Run.toExpr] at hrun
  rw [Run.extend]
  split
  next inner n hoperator =>
    split
    next hinner =>
      subst hinner
      rw [hoperator, Option.elim_some] at hrun
      exact ⟨h.isInteger, hrun.unary inner⟩
    next => exact alone
  next => exact alone

theorem refines_run (value : String → Option Int) (boolean : Bool) :
    ∀ {e : Expr Int}, e.IsInteger → (e.run boolean).Refines value e
  | .number n text, h => by
    rw [run]
    exact ⟨h, .refl h⟩
  | .scalar name, h => by
    rw [run]
    exact ⟨h, .refl h⟩
  | .unary op operand, h => by
    rw [IsInteger] at h
    rw [run]
    exact (refines_run value boolean h).extend boolean op
  | .binary op left right, h => by
    rw [IsInteger] at h
    obtain ⟨hdiv, hpow, hl, hr⟩ := h
    have hleft := (refines_run value boolean hl).finish boolean
    have hright := (refines_run value boolean hr).finish boolean
    have hreduced : Refines value _ _ :=
      refines_reduceBinary hleft.isInteger hright.isInteger boolean hdiv hpow
    rw [run]
    exact ⟨hreduced.isInteger, (Refines.binary hdiv hpow hleft hright).trans hreduced⟩

/-- An expression of integers that has a value has the same value after reduction. -/
theorem evaluate?_reduce (boolean : Bool) (value : String → Option Int) {e : Expr Int}
    (he : e.IsInteger) {v : Value Int} (hv : e.evaluate? value = some v) :
    (e.reduce boolean).1.evaluate? value = some v :=
  ((refines_run value boolean he).finish boolean).evaluate? hv

/-- `NOT (A OR B AND a)`, which is reduced to `NOT A` where logical identities are applied. -/
def absorbedOperand : Expr Int :=
  .unary .not (.binary .or (.scalar ⟨"A"⟩) (.binary .and (.scalar ⟨"B"⟩) (.scalar ⟨"a"⟩)))

theorem evaluate?_reduce_absorbedOperand :
    absorbedOperand.IsInteger ∧
      absorbedOperand.evaluate? (fun name => some (if name = "A" then 6 else 3)) =
        some (.number (-7)) ∧
      (absorbedOperand.reduce true).1.evaluate? (fun name => some (if name = "A" then 6 else 3)) =
        some (.number (-7)) := by
  have hvalue : absorbedOperand.evaluate? (fun name => some (if name = "A" then 6 else 3)) =
      some (.number (-7)) := by
    have hnumber : (absorbedOperand.evaluate? fun name => some (if name = "A" then 6 else 3)).bind
        Value.number? = some (-7) := by
      decide +kernel
    obtain ⟨v, hv, hv'⟩ := Option.bind_eq_some_iff.1 hnumber
    rw [hv, Value.number?_eq_some_iff.1 hv']
  have isVariable {n : Name} {c : Char} (hkey : n.key.toList = [c]) (hc : c.isAlpha)
      (hinside : ¬ endsWord c) (hadmitted : Grammar.isVariableName n) : n.IsVariable :=
    ⟨⟨⟨c, [], hkey, hc⟩, by simpa [hkey] using hinside⟩, hadmitted⟩
  have hinteger : absorbedOperand.IsInteger := by
    refine ⟨by decide, by decide, ?_, by decide, by decide, ?_, ?_⟩
    · exact isVariable (c := 'A') (by decide +kernel) rfl (by decide) (by decide +kernel)
    · exact isVariable (c := 'B') (by decide +kernel) rfl (by decide) (by decide +kernel)
    · exact isVariable (c := 'A') (by decide +kernel) rfl (by decide) (by decide +kernel)
  exact ⟨hinteger, hvalue, evaluate?_reduce true _ hinteger hvalue⟩

end Expr
end LineBasic
