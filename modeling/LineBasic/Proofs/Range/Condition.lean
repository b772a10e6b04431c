import LineBasic.Proofs.Expr.NumberValues
import LineBasic.Range.Interval

/-!
# What conditions say of scalars

Where a condition holds, and where it fails, the scalars have numbers in the ranges that
`constraints` lists. A condition holds if its value is not zero. For the parts of a condition that
fails more is known: they are not the word `-1` that stands for truth. This is so of any reading of
the condition (`Expr.NumericReading.mem_range`), and so of what it denotes in a memory
(`mem_range_of_constraints`).
-/

namespace LineBasic

/-! ## Numbers in ranges -/

section

variable {ν : Type} [Arithmetic ν]

/-- The number is on the inner side of a lower end. -/
def Bound.isBelow (a : Bound ν) (x : ν) : Bool :=
  if a.isExclusive then Arithmetic.less a.value x else Arithmetic.atMost a.value x

/-- The number is on the inner side of an upper end. -/
def Bound.isAbove (b : Bound ν) (x : ν) : Bool :=
  if b.isExclusive then Arithmetic.less x b.value else Arithmetic.atMost x b.value

/-- The number is in the range. -/
def ValueRange.contains (r : ValueRange ν) (x : ν) : Bool :=
  r.lower.all (fun a => a.isBelow x) && r.upper.all fun b => b.isAbove x

theorem ValueRange.contains_iff {r : ValueRange ν} {x : ν} : r.contains x = true ↔
    (∀ a, r.lower = some a → a.isBelow x = true) ∧ ∀ b, r.upper = some b → b.isAbove x = true := by
  rw [contains, Bool.and_eq_true, Option.all_eq_true, Option.all_eq_true]

end

open Number Arithmetic

variable {a b : Bound Float} {r s : ValueRange Float} {x c : Float}

theorem Bound.isBelow_iff : a.isBelow x = true ↔ IsNumber a.value ∧ IsNumber x ∧
    rank a.value ≤ rank x ∧ (a.isExclusive = true → rank a.value < rank x) := by
  rw [isBelow]
  cases a.isExclusive with
  | true =>
    rw [if_pos rfl, less_iff]
    simp only [forall_const]
    exact and_congr_right fun _ => and_congr_right fun _ => ⟨fun h => ⟨h.le, h⟩, And.right⟩
  | false => simp [atMost_iff]

theorem Bound.isAbove_iff : b.isAbove x = true ↔ IsNumber b.value ∧ IsNumber x ∧
    rank x ≤ rank b.value ∧ (b.isExclusive = true → rank x < rank b.value) := by
  rw [isAbove, ← and_left_comm]
  cases b.isExclusive with
  | true =>
    rw [if_pos rfl, less_iff]
    simp only [forall_const]
    exact and_congr_right fun _ => and_congr_right fun _ => ⟨fun h => ⟨h.le, h⟩, And.right⟩
  | false => simp [atMost_iff]

namespace ValueRange

/-- The narrower of two ends is one of them, or it excludes what one of them excludes. -/
theorem narrower_cases (holds : Bound Float → Prop) (isNarrower : Float → Float → Bool)
    (ha : holds a) (hb : holds b)
    (hsame : rank a.value = rank b.value → holds ⟨a.value, a.isExclusive || b.isExclusive⟩) :
    holds (narrower isNarrower a b) := by
  rw [narrower]
  split
  next h => exact hsame (same_iff.1 h).2.2
  next => split <;> assumption

theorem isBelow_narrower (isNarrower : Float → Float → Bool) (ha : a.isBelow x = true)
    (hb : b.isBelow x = true) : (narrower isNarrower a b).isBelow x = true := by
  refine narrower_cases (fun a => a.isBelow x = true) isNarrower ha hb fun h => ?_
  rw [Bound.isBelow_iff] at ha hb ⊢
  refine ⟨ha.1, ha.2.1, ha.2.2.1, fun hex => ?_⟩
  rcases Bool.or_eq_true_iff.1 hex with hex | hex
  · exact ha.2.2.2 hex
  · exact h ▸ hb.2.2.2 hex

theorem isAbove_narrower (isNarrower : Float → Float → Bool) (ha : a.isAbove x = true)
    (hb : b.isAbove x = true) : (narrower isNarrower a b).isAbove x = true := by
  refine narrower_cases (fun a => a.isAbove x = true) isNarrower ha hb fun h => ?_
  rw [Bound.isAbove_iff] at ha hb ⊢
  refine ⟨ha.1, ha.2.1, ha.2.2.1, fun hex => ?_⟩
  rcases Bool.or_eq_true_iff.1 hex with hex | hex
  · exact ha.2.2.2 hex
  · exact h ▸ hb.2.2.2 hex

/-- An end of the intersection is an end of one range, or the narrower of both ends. -/
theorem merge_cases {holds : Bound Float → Prop} {join : Bound Float → Bound Float → Bound Float}
    {left right : Option (Bound Float)} (hleft : ∀ a, left = some a → holds a)
    (hright : ∀ b, right = some b → holds b)
    (hjoin : ∀ a b, holds a → holds b → holds (join a b)) :
    ∀ c, Option.merge join left right = some c → holds c := by
  rintro c h
  cases left with
  | none => exact hright c (by simpa using h)
  | some a =>
    cases right with
    | none => exact hleft c (by simpa using h)
    | some b =>
      obtain rfl : join a b = c := by simpa using h
      exact hjoin a b (hleft a rfl) (hright b rfl)

theorem contains_intersect (hr : r.contains x = true) (hs : s.contains x = true) :
    (r.intersect s).contains x = true := by
  rw [contains_iff] at hr hs ⊢
  exact ⟨merge_cases hr.1 hs.1 fun _ _ => isBelow_narrower _,
    merge_cases hr.2 hs.2 fun _ _ => isAbove_narrower _⟩

end ValueRange

/-! ## Comparisons with a constant -/

/-- The relation holds between two numbers. -/
def BinaryOp.compares (op : BinaryOp) (x y : Float) : Bool :=
  op.accepts (same x y) (less x y) (less y x)

/-- Of two numbers one is less, or they are the same. -/
theorem comparisons_cases (hx : IsNumber x) (hc : IsNumber c) :
    same x c = true ∧ less x c = false ∧ less c x = false ∨
      same x c = false ∧ less x c = true ∧ less c x = false ∨
        same x c = false ∧ less x c = false ∧ less c x = true := by
  simp only [← Bool.not_eq_true, same_iff, less_iff, hx, hc, true_and]
  rcases lt_trichotomy (rank x) (rank c) with h | h | h
  · exact .inr (.inl ⟨h.ne, h, h.not_gt⟩)
  · exact .inl ⟨h, h.not_lt, h.not_gt⟩
  · exact .inr (.inr ⟨h.ne', h.not_gt, h⟩)

namespace BinaryOp

variable {op op' : BinaryOp}

theorem accepts_swapped (h : op.swapped? = some op') (same less greater : Bool) :
    op'.accepts same less greater = op.accepts same greater less := by
  cases op <;> cases h <;> rfl

theorem compares_swapped (h : op.swapped? = some op') (x y : Float) :
    op'.compares x y = op.compares y x := by
  have hsame : same x y = same y x := by
    rw [Bool.eq_iff_iff, same_iff, same_iff, and_left_comm, eq_comm]
  rw [compares, compares, hsame, accepts_swapped h]

theorem compares_inverted (h : op.inverted? = some op') (hx : IsNumber x) (hc : IsNumber c) :
    op'.compares x c = !op.compares x c :=
  accepts_inverted h (comparisons_cases hx hc)

theorem compares_of_isRelational (h : op.isRelational = true) (x y : Float) :
    op.applyNumbers? x y = some (.truth (op.compares x y)) := by
  cases op <;> first | rfl | cases h

end BinaryOp

/-- A number that stands in the relation to the constant is in the range of the relation. -/
theorem ValueRange.contains_ofRelation {op : BinaryOp} (h : ofRelation? op c = some r)
    (hx : IsNumber x) (hc : IsNumber c) (hcompares : op.compares x c = true) :
    r.contains x = true := by
  have hsame : same x c = true → rank x = rank c := fun h => (same_iff.1 h).2.2
  have hless : less x c = true → rank x < rank c := fun h => (less_iff.1 h).2.2
  have hgreater : less c x = true → rank c < rank x := fun h => (less_iff.1 h).2.2
  rw [contains_iff]
  simp only [Bound.isBelow_iff, Bound.isAbove_iff]
  unfold ofRelation? at h
  split at h <;> cases h <;>
    simp only [exactly, above, below, Option.some.injEq, reduceCtorEq, false_implies, implies_true,
      true_and, and_true, forall_eq', Bool.false_eq_true, forall_const, hx, hc]
  · exact ⟨(hsame hcompares).ge, (hsame hcompares).le⟩
  · exact ⟨(hless hcompares).le, hless hcompares⟩
  · exact (Bool.or_eq_true_iff.1 hcompares).elim (fun h => (hless h).le) fun h => (hsame h).le
  · exact ⟨(hgreater hcompares).le, hgreater hcompares⟩
  · exact (Bool.or_eq_true_iff.1 hcompares).elim (fun h => (hgreater h).le) fun h => (hsame h).ge

/-! ## Conditions -/

section Conditions

variable {R : Expr Float → Value Float → Prop} {op op' : BinaryOp} {left right : Expr Float}
  {key : String} {n : Float}

/-- What is compared with a number is a number. -/
theorem exists_number_of_result? {v : Value Float} {y : Float}
    (h : op.result? v (.number y) = some (.number n) ∨
      op.result? (.number y) v = some (.number n)) :
    ∃ x, v = .number x := by
  cases v with
  | number x => exact ⟨x, rfl⟩
  | string text => rcases h with h | h <;> cases h

/-- The value of a comparison of a scalar with a constant. -/
theorem Expr.NumericReading.exists_of_comparison? (hR : NumericReading R)
    (hop : op.isRelational = true) (h : comparison? op left right = some (key, op', c))
    (hn : R (.binary op left right) (.number n)) :
    ∃ name x, Name.key name = key ∧ R (.scalar name) (.number x) ∧ IsNumber c ∧
      n = truth (op'.compares x c) := by
  obtain ⟨v, w, hv, hw, hresult⟩ := hR.binary hn
  unfold comparison? at h
  split at h
  next name =>
    obtain ⟨c, hc, ⟨rfl, rfl, rfl⟩⟩ := Option.map_eq_some_iff.1 h
    obtain rfl := hR.eq_constant hc hw
    obtain ⟨x, rfl⟩ := exists_number_of_result? (.inl hresult)
    rw [BinaryOp.result?, BinaryOp.compares_of_isRelational hop] at hresult
    exact ⟨name, x, rfl, hv, hR.isNumber hw, (Value.number.inj (Option.some.inj hresult)).symm⟩
  next name _ =>
    simp only [bind, Option.bind_eq_some_iff] at h
    obtain ⟨swapped, hswapped, c, hc, h⟩ := h
    obtain ⟨rfl, rfl, rfl⟩ := h
    obtain rfl := hR.eq_constant hc hv
    obtain ⟨x, rfl⟩ := exists_number_of_result? (.inr hresult)
    rw [BinaryOp.result?, BinaryOp.compares_of_isRelational hop] at hresult
    refine ⟨name, x, rfl, hw, hR.isNumber hv, ?_⟩
    rw [BinaryOp.compares_swapped hswapped]
    exact (Value.number.inj (Option.some.inj hresult)).symm
  next => cases h

/-- A value that is not zero, or one that is not the word that stands for truth. -/
def Decides (holds : Bool) (n : Float) : Prop :=
  if holds then isZero n = false else word? n ≠ some (-1)

theorem decides_truth {holds b : Bool} (h : Decides holds (truth b)) : b = holds := by
  cases holds with
  | true =>
    rw [Decides, if_pos rfl, isZero_truth] at h
    simpa using h
  | false =>
    rw [Decides, if_neg Bool.false_ne_true, word?_truth] at h
    cases b with
    | true => exact absurd rfl h
    | false => rfl

theorem exists_of_mem_constraints (hop : op.isRelational = true) {holds : Bool}
    (hr : (key, r) ∈ constraints holds (.binary op left right)) :
    ∃ op' c, comparison? op left right = some (key, op', c) ∧
      ∃ op'', (if holds then some op' else op'.inverted?) = some op'' ∧
        ValueRange.ofRelation? op'' c = some r := by
  rw [constraints, if_pos hop, Option.mem_toList] at hr
  · cases holds <;>
    · simp only [bind, Option.bind_eq_some_iff, Bool.false_eq_true, if_true, if_false] at hr ⊢
      obtain ⟨⟨_, op', c⟩, hcompared, op'', hop'', _, hrange, h⟩ := hr
      obtain ⟨rfl, rfl⟩ := Prod.mk.inj (Option.some.inj h)
      exact ⟨op', c, hcompared, op'', hop'', hrange⟩
  · rintro rfl
    cases hop
  · rintro rfl
    cases hop

/-- A scalar that is compared with a constant is in the range of the relation. -/
theorem Expr.NumericReading.contains_of_comparison (hR : NumericReading R)
    (hop : op.isRelational = true) {holds : Bool}
    (hr : (key, r) ∈ constraints holds (.binary op left right))
    (hn : R (.binary op left right) (.number n)) (hdecides : Decides holds n) :
    ∃ name x, Name.key name = key ∧ R (.scalar name) (.number x) ∧ r.contains x = true := by
  obtain ⟨op', c, hcompared, op'', hop'', hrange⟩ := exists_of_mem_constraints hop hr
  obtain ⟨name, x, hkey, hx, hc, rfl⟩ := hR.exists_of_comparison? hop hcompared hn
  have hnumber := hR.isNumber hx
  have hcompares := decides_truth hdecides
  refine ⟨name, x, hkey, hx, ValueRange.contains_ofRelation hrange hnumber hc ?_⟩
  cases holds with
  | true =>
    obtain rfl : op' = op'' := Option.some.inj hop''
    exact hcompares
  | false =>
    rw [BinaryOp.compares_inverted hop'' hnumber hc, hcompares]
    rfl

/-- The operands of a logical operator are words. -/
theorem Expr.Reading.exists_words (hR : Reading R) (hop : op.isLogical = true)
    (h : R (.binary op left right) (.number n)) :
    ∃ a b wa wb, R left (.number a) ∧ R right (.number b) ∧ word? a = some wa ∧ word? b = some wb ∧
      n = Arithmetic.ofInt (op.bitwise wa wb) := by
  obtain ⟨⟨a⟩ | ⟨s⟩, ⟨b⟩ | ⟨u⟩, hv, hw, hresult⟩ := hR.binary h
  · rw [BinaryOp.result?,
      BinaryOp.applyNumbers?_words (BinaryOp.takesWords_of_isLogical hop)] at hresult
    simp only [Option.bind_eq_some_iff, BinaryOp.applyWords?_of_isLogical hop] at hresult
    obtain ⟨wa, hwa, wb, hwb, w, ⟨rfl⟩, h⟩ := hresult
    exact ⟨a, b, wa, wb, hv, hw, hwa, hwb, (Value.number.inj (Option.some.inj h)).symm⟩
  · cases hresult
  · cases hresult
  · cases op <;> first | exact absurd hop Bool.false_ne_true | cases hresult

/-- A word decides, unless it is the word that its side leaves out. -/
theorem decides_of_word? {holds : Bool} {w : Int} (hw : word? n = some w)
    (hne : w ≠ if holds then 0 else -1) : Decides holds n := by
  cases holds with
  | true =>
    rw [Decides, if_pos rfl, ← Bool.not_eq_true]
    intro hzero
    exact hne (Option.some.inj (hw.symm.trans (word?_of_isZero hzero)))
  | false =>
    rw [Decides, if_neg Bool.false_ne_true, hw]
    exact fun h => hne (Option.some.inj h)

/-- A condition decides which of its arms is taken. -/
theorem decides_of_isZero {holds : Bool} (h : isZero n = !holds) : Decides holds n := by
  cases holds with
  | true => exact h
  | false => exact decides_of_word? (word?_of_isZero h) (by decide)

theorem ne_of_decides {holds : Bool} {w : Int} (h : Decides holds (ofInt w : Float)) :
    w ≠ if holds then 0 else -1 := by
  have hzero : isZero (ofInt 0 : Float) = true := isZero_truth false
  have htrue : word? (ofInt (-1) : Float) = some (-1) := word?_truth true
  rintro rfl
  cases holds with
  | true =>
    rw [Decides, if_pos rfl, if_pos rfl, hzero] at h
    cases h
  | false =>
    rw [Decides, if_neg Bool.false_ne_true, if_neg Bool.false_ne_true] at h
    exact h htrue

/-- One operand decides an `AND` that is zero and an `OR` that is true. -/
theorem bitwise_eq_of_operand {holds : Bool} {a b : Int} (h : a = (if holds then 0 else -1) ∨
    b = if holds then 0 else -1) :
    (if holds then BinaryOp.and else .or).bitwise a b = if holds then 0 else -1 := by
  cases holds with
  | true => rcases h with rfl | rfl <;> simp [BinaryOp.bitwise]
  | false =>
    have hones : BitVec.ofInt 16 (-1) = BitVec.allOnes 16 := by decide
    rcases h with rfl | rfl <;>
      simp only [Bool.false_eq_true, if_false, BinaryOp.bitwise, hones, BitVec.allOnes_or,
        BitVec.or_allOnes, BitVec.toInt_allOnes, Nat.zero_lt_succ, if_true]

/-- If an `AND` is not zero, so are its operands; and if an `OR` is not true, so are they. -/
theorem Expr.Reading.decides_operands (hR : Reading R) {holds : Bool}
    (hop : op = if holds then .and else .or) (hn : R (.binary op left right) (.number n))
    (hdecides : Decides holds n) :
    ∃ a b, R left (.number a) ∧ R right (.number b) ∧ Decides holds a ∧ Decides holds b := by
  have hlogical : op.isLogical = true := by
    rw [hop]
    cases holds <;> rfl
  obtain ⟨a, b, wa, wb, ha, hb, hwa, hwb, rfl⟩ := hR.exists_words hlogical hn
  have hne := ne_of_decides hdecides
  rw [hop] at hne
  exact ⟨a, b, ha, hb, decides_of_word? hwa fun h => hne (bitwise_eq_of_operand (.inl h)),
    decides_of_word? hwb fun h => hne (bitwise_eq_of_operand (.inr h))⟩

/-- What a binary operator says: a comparison, or what its operands say. -/
theorem mem_constraints_binary {holds : Bool}
    (hr : (key, r) ∈ constraints holds (.binary op left right)) : op.isRelational = true ∨
      op = (if holds then .and else .or) ∧
        ((key, r) ∈ constraints holds left ∨ (key, r) ∈ constraints holds right) := by
  cases op <;> first
    | exact .inl rfl
    | cases holds <;> first | exact .inr ⟨rfl, List.mem_append.1 hr⟩ | cases hr

/-- What a condition says of scalars is so. -/
theorem Expr.NumericReading.mem_range (hR : NumericReading R) :
    ∀ {e : Expr Float} {holds : Bool} {n : Float}, R e (.number n) → Decides holds n →
      ∀ {key r}, (key, r) ∈ constraints holds e →
        ∃ name x, Name.key name = key ∧ R (.scalar name) (.number x) ∧ r.contains x = true
  | .unary .not operand, holds, n, hn, hdecides, key, r, hr => by
    obtain ⟨m, _, hm, hresult, ⟨rfl⟩⟩ := hR.unary hn
    obtain ⟨w, hw, rfl⟩ := Option.map_eq_some_iff.1 hresult
    have hne := ne_of_decides hdecides
    refine hR.mem_range hm (decides_of_word? hw ?_) hr
    cases holds <;> simp only [Bool.not_true, Bool.not_false, Bool.false_eq_true, if_true,
      if_false] at hne ⊢ <;> omega
  | .binary op left right, holds, n, hn, hdecides, key, r, hr => by
    rcases mem_constraints_binary hr with hop | ⟨hop, hr'⟩
    · exact hR.contains_of_comparison hop hr hn hdecides
    · obtain ⟨a, b, ha, hb, hleft, hright⟩ := hR.decides_operands hop hn hdecides
      rcases hr' with hr' | hr'
      · exact hR.mem_range ha hleft hr'
      · exact hR.mem_range hb hright hr'
  | .unary .neg _, _, _, _, _, _, _, hr => by cases hr
  | .number .., _, _, _, _, _, _, hr => by cases hr
  | .string _, _, _, _, _, _, _, hr => by cases hr
  | .scalar _, _, _, _, _, _, _, hr => by cases hr
  | .element .., _, _, _, _, _, _, hr => by cases hr
  | .intrinsic .., _, _, _, _, _, _, hr => by cases hr
  | .call .., _, _, _, _, _, _, hr => by cases hr

/-- What a condition says of scalars is so of the memory in which it denotes a number. -/
theorem mem_range_of_constraints {memory : Memory Float} {e : Expr Float} {holds : Bool} {n : Float}
    (hn : e.Denotes memory (.number n)) (hdecides : Decides holds n) {key : String}
    {r : ValueRange Float} (hr : (key, r) ∈ constraints holds e) :
    ∃ x, memory key = .number x ∧ r.contains x = true := by
  obtain ⟨name, x, rfl, hx, hcontains⟩ :=
    (Expr.numericReading_denotes memory).mem_range hn hdecides hr
  exact ⟨x, hx.1.symm, hcontains⟩

end Conditions

end LineBasic
