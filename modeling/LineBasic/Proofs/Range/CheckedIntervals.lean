import LineBasic.Proofs.Expr.Subterms
import LineBasic.Proofs.Range.Integer

/-!
# Intervals in 64-bit arithmetic

`Expr.checkedInterval?` finds intervals in the arithmetic of 64-bit integers, where the evaluation
stops at a result that does not fit. Intervals that the states put within reach of zero stay there
(`Expr.inReach_of_interval?`). For such states nothing stops the evaluation, and what it finds is
`Expr.interval?` (`Expr.checkedInterval?_eq`). The intervals hold the values that the expression is
evaluated to in any arithmetic that is exact on integers (`Expr.interval?_sound`).
-/

namespace LineBasic

/-- A result that is no 64-bit integer. -/
structure Overflow where
  value : Int
  deriving DecidableEq, Repr

/-- Computations with 64-bit integers, which stop at an overflow. -/
abbrev Checked := Except Overflow

/-- The result of an operation on 64-bit integers. -/
def Checked.fit (n : Int) : Checked Int :=
  if -2 ^ 63 ≤ n ∧ n < 2 ^ 63 then .ok n else .error ⟨n⟩

open Checked

/-! ## The evaluation -/

namespace Interval

def checkedNegation? (a : Interval) : Checked (Option Interval) := do
  return withinReach? (← fit (-a.hi)) (← fit (-a.lo))

def checkedComplement? (a : Interval) : Checked (Option Interval) := do
  if a.isWithin truth then return some truth
  let lo ← fit (-a.hi - 1)
  let hi ← fit (-a.lo - 1)
  return (withinReach? lo hi).filter fun r => r.isWithin word

def checkedAbsolute (a : Interval) : Checked Interval := do
  let x ← fit a.lo.natAbs
  let y ← fit a.hi.natAbs
  return ⟨if a.lo ≤ 0 ∧ 0 ≤ a.hi then 0 else min x y, max x y⟩

def checkedSum? (a b : Interval) : Checked (Option Interval) := do
  return withinReach? (← fit (a.lo + b.lo)) (← fit (a.hi + b.hi))

def checkedDifference? (a b : Interval) : Checked (Option Interval) := do
  return withinReach? (← fit (a.lo - b.hi)) (← fit (a.hi - b.lo))

def checkedProduct? (a b : Interval) : Checked (Option Interval) := do
  let w ← fit (a.lo * b.lo)
  let x ← fit (a.lo * b.hi)
  let y ← fit (a.hi * b.lo)
  let z ← fit (a.hi * b.hi)
  return withinReach? (min (min w x) (min y z)) (max (max w x) (max y z))

def checkedQuotient? (a b : Interval) : Checked (Option Interval) :=
  match b.divisor? with
  | none => return none
  | some d => return some ⟨← fit (a.lo.tdiv d), ← fit (a.hi.tdiv d)⟩

def checkedRemainder? (a b : Interval) : Checked (Option Interval) :=
  match b.divisor? with
  | none => return none
  | some d => do
    let m ← fit (d - 1)
    let lo ← if 0 ≤ a.lo then pure 0 else fit (-m)
    return some ⟨lo, if a.hi ≤ 0 then 0 else m⟩

end Interval

/-- The values of an operator; without an interval of the operand nothing is computed. -/
def UnaryOp.checkedInterval? (op : UnaryOp) (operand : Checked (Option Interval)) :
    Checked (Option Interval) := do
  let some a ← operand | return none
  match op with
  | neg => a.checkedNegation?
  | not => a.checkedComplement?

/-- The values of an operator. The operands of a comparison are not looked at, and the right operand
of another operator only if the left one has an interval. -/
def BinaryOp.checkedInterval? (op : BinaryOp) (left right : Checked (Option Interval)) :
    Checked (Option Interval) := do
  if op.isRelational then return some .truth
  let some a ← left | return none
  let some b ← right | return none
  match op with
  | add => a.checkedSum? b
  | sub => a.checkedDifference? b
  | mul => a.checkedProduct? b
  | intDiv => a.checkedQuotient? b
  | mod => a.checkedRemainder? b
  | _ => return if op.isLogical then a.logical? op b else none

/-- The values of an intrinsic function; only those that keep integers look at their argument. -/
def Intrinsic.checkedInterval? : Intrinsic → List (Checked (Option Interval)) →
    Checked (Option Interval)
  | len, _ | asc, _ | peek, _ | inp, _ | instr, _ | pos, _ | lpos, _ => return some .byte
  | sgn, _ => return some ⟨-1, 1⟩
  | int, [arg] | fix, [arg] | cint, [arg] => arg
  | abs, [arg] => do
    let some a ← arg | return none
    return some (← a.checkedAbsolute)
  | _, _ => return none

namespace Expr

variable {ν : Type} [Arithmetic ν]

mutual

/-- An interval around the values of an expression, found in 64-bit arithmetic. -/
def checkedInterval? (states : String → RangeState) : Expr ν → Checked (Option Interval)
  | .number value _ => return literalInterval? value
  | .scalar name => return (states name.key).interval?
  | .unary op operand => op.checkedInterval? (operand.checkedInterval? states)
  | .binary op left right =>
    op.checkedInterval? (left.checkedInterval? states) (right.checkedInterval? states)
  | .intrinsic f args => f.checkedInterval? (checkedIntervalsOfList states args)
  | .string _ | .element .. | .call .. => return none

def checkedIntervalsOfList (states : String → RangeState) :
    List (Expr ν) → List (Checked (Option Interval))
  | [] => []
  | e :: rest => e.checkedInterval? states :: checkedIntervalsOfList states rest

end

end Expr

/-! ## Intervals within reach of zero -/

namespace Interval

variable {a b i k : Interval}

/-- The interval has members, and they are within reach of zero. -/
structure InReach (i : Interval) : Prop where
  lower : -reach ≤ i.lo
  ordered : i.lo ≤ i.hi
  upper : i.hi ≤ reach

theorem inReach_of_withinReach? {lo hi : Int} (h : withinReach? lo hi = some k) (hle : lo ≤ hi) :
    k.InReach := by
  obtain ⟨⟨hlo, hhi⟩, h⟩ := Option.ite_none_right_eq_some.1 h
  exact Option.some.inj h ▸ ⟨hlo, hle, hhi⟩

theorem inReach_negation? (ha : a.InReach) (h : a.negation? = some k) : k.InReach :=
  inReach_of_withinReach? h (Int.neg_le_neg ha.ordered)

theorem inReach_complement? (ha : a.InReach) (h : a.complement? = some k) : k.InReach := by
  rw [complement?] at h
  split at h
  next =>
    obtain rfl := Option.some.inj h
    exact ⟨by decide, by decide, by decide⟩
  next =>
    have hle := ha.ordered
    exact inReach_of_withinReach? (Option.filter_eq_some_iff.1 h).1 (by omega)

theorem inReach_absolute (ha : a.InReach) : a.absolute.InReach := by
  obtain ⟨hlo, hle, hhi⟩ := ha
  unfold reach at hlo hhi
  constructor <;> simp only [absolute, reach] <;> omega

theorem inReach_sum? (ha : a.InReach) (hb : b.InReach) (h : a.sum? b = some k) : k.InReach :=
  inReach_of_withinReach? h (Int.add_le_add ha.ordered hb.ordered)

theorem inReach_difference? (ha : a.InReach) (hb : b.InReach) (h : a.difference? b = some k) :
    k.InReach :=
  inReach_of_withinReach? h (Int.sub_le_sub ha.ordered hb.ordered)

theorem inReach_product? (h : a.product? b = some k) : k.InReach :=
  inReach_of_withinReach? h (by omega)

/-- A divisor is within reach of zero. -/
theorem bounds_of_divisor? {d : Int} (hb : b.InReach) (h : b.divisor? = some d) :
    0 < d ∧ d ≤ reach := by
  obtain ⟨rfl, hpos⟩ := eq_of_divisor? h ⟨Int.le_refl b.lo, hb.ordered⟩
  exact ⟨hpos, hb.ordered.trans hb.upper⟩

theorem natAbs_tdiv_le (n d : Int) : (n.tdiv d).natAbs ≤ n.natAbs := by
  rw [Int.natAbs_tdiv]
  exact Nat.div_le_self ..

theorem inReach_quotient? (ha : a.InReach) (h : a.quotient? b = some k) : k.InReach := by
  obtain ⟨d, hd, rfl⟩ := Option.map_eq_some_iff.1 h
  obtain ⟨hlo, hle, hhi⟩ := ha
  have hpos : 0 < d := by simpa using (Option.filter_eq_some_iff.1 hd).2
  have hlow := natAbs_tdiv_le a.lo d
  have hhigh := natAbs_tdiv_le a.hi d
  unfold reach at hlo hhi
  constructor <;> simp only [reach]
  · omega
  · exact Int.tdiv_le_tdiv hpos hle
  · omega

theorem inReach_remainder? (hb : b.InReach) (h : a.remainder? b = some k) : k.InReach := by
  obtain ⟨d, hd, rfl⟩ := Option.map_eq_some_iff.1 h
  obtain ⟨hpos, hle⟩ := bounds_of_divisor? hb hd
  unfold reach at hle
  constructor <;> simp only [reach] <;> split <;> try split
  all_goals omega

theorem inReach_logical? {op : BinaryOp} (ha : a.InReach) (hb : b.InReach)
    (h : a.logical? op b = some k) : k.InReach := by
  have hupper := ha.upper
  rw [logical?] at h
  split at h
  next => exact Option.some.inj h ▸ ⟨by decide, by decide, by decide⟩
  next =>
    split at h
    next hboth =>
      obtain rfl := Option.some.inj h
      have hle := hboth.2.1.trans ha.ordered
      have hle' := hboth.2.2.trans hb.ordered
      have hreach : -reach ≤ 0 := by decide
      exact ⟨hreach, by simp only; omega, by simp only; omega⟩
    next =>
      obtain ⟨-, h⟩ := Option.ite_none_right_eq_some.1 h
      exact Option.some.inj h ▸ ⟨by decide, by decide, by decide⟩

end Interval

/-- What is known of an interval that there may be. -/
def InReach? (i : Option Interval) : Prop := ∀ k, i = some k → k.InReach

section InReach

variable {left right operand : Option Interval} {k : Interval}

theorem UnaryOp.inReach_interval? (op : UnaryOp) (h : InReach? operand) :
    InReach? (op.interval? operand) := by
  intro k hk
  cases op with
  | neg =>
    obtain ⟨a, ha, hk⟩ := Option.bind_eq_some_iff.1 hk
    exact Interval.inReach_negation? (h a ha) hk
  | not =>
    obtain ⟨a, ha, hk⟩ := Option.bind_eq_some_iff.1 hk
    exact Interval.inReach_complement? (h a ha) hk

theorem BinaryOp.inReach_interval? (op : BinaryOp) (hleft : InReach? left)
    (hright : InReach? right) : InReach? (op.interval? left right) := by
  intro k hk
  rw [interval?] at hk
  split at hk
  next => exact Option.some.inj hk ▸ ⟨by decide, by decide, by decide⟩
  next =>
    simp only [bind, Option.bind_eq_some_iff] at hk
    obtain ⟨a, ha, b, hb, hk⟩ := hk
    replace ha := hleft a ha
    replace hb := hright b hb
    cases op
    case add => exact Interval.inReach_sum? ha hb hk
    case sub => exact Interval.inReach_difference? ha hb hk
    case mul => exact Interval.inReach_product? hk
    case intDiv => exact Interval.inReach_quotient? ha hk
    case mod => exact Interval.inReach_remainder? hb hk
    all_goals
      obtain ⟨-, hk⟩ := Option.ite_none_right_eq_some.1 hk
      exact Interval.inReach_logical? ha hb hk

theorem Intrinsic.inReach_interval? (f : Intrinsic) {args : List (Option Interval)}
    (h : ∀ arg ∈ args, InReach? arg) : InReach? (f.interval? args) := by
  intro k hk
  unfold interval? at hk
  split at hk
  case h_9 | h_10 | h_11 => exact h _ (List.mem_singleton_self _) k hk
  case h_12 =>
    obtain ⟨a, ha, rfl⟩ := Option.map_eq_some_iff.1 hk
    exact Interval.inReach_absolute (h _ (List.mem_singleton_self _) a ha)
  case h_13 => cases hk
  all_goals exact Option.some.inj hk ▸ ⟨by decide, by decide, by decide⟩

end InReach

namespace Expr

variable {ν : Type} [Arithmetic ν] {states : String → RangeState}

theorem inReach_literalInterval? (x : ν) : InReach? (literalInterval? x) := by
  intro k hk
  obtain ⟨n, hn, rfl⟩ := Option.map_eq_some_iff.1 hk
  have hle := (Option.filter_eq_some_iff.1 hn).2
  rw [decide_eq_true_eq] at hle
  exact ⟨by simp only [Interval.point]; omega, Int.le_refl n, by simp only [Interval.point]; omega⟩

/-- The states have intervals within reach of zero. -/
def StatesInReach (states : String → RangeState) : Prop :=
  ∀ key i, states key = .bounded i → i.InReach

theorem StatesInReach.interval? (h : StatesInReach states) (key : String) :
    InReach? (states key).interval? := by
  intro k hk
  cases hstate : states key with
  | unassigned =>
    rw [hstate] at hk
    exact Option.some.inj hk ▸ ⟨by decide, by decide, by decide⟩
  | bounded i =>
    rw [hstate] at hk
    exact Option.some.inj hk ▸ h key i hstate
  | unknown =>
    rw [hstate] at hk
    cases hk

mutual

/-- Intervals stay within reach of zero. -/
theorem inReach_of_interval? (h : StatesInReach states) :
    (e : Expr ν) → InReach? (e.interval? states)
  | .number x _ => inReach_literalInterval? x
  | .scalar name => h.interval? name.key
  | .unary op operand => op.inReach_interval? (inReach_of_interval? h operand)
  | .binary op left right =>
    op.inReach_interval? (inReach_of_interval? h left) (inReach_of_interval? h right)
  | .intrinsic f args => f.inReach_interval? (inReach_of_intervalsOfList h args)
  | .string _ => nofun
  | .element .. => nofun
  | .call .. => nofun

theorem inReach_of_intervalsOfList (h : StatesInReach states) :
    (es : List (Expr ν)) → ∀ i ∈ intervalsOfList states es, InReach? i
  | [] => nofun
  | e :: rest =>
    List.forall_mem_cons.2 ⟨inReach_of_interval? h e, inReach_of_intervalsOfList h rest⟩

end

end Expr

/-! ## No overflow -/

theorem Checked.fit_eq {n : Int} (h : n.natAbs < 2 ^ 63) : fit n = pure n :=
  if_pos (by omega)

namespace Interval

variable {a b : Interval}

/-- The ends of an interval within reach of zero are no greater than that. -/
theorem InReach.natAbs_le (h : a.InReach) : a.lo.natAbs ≤ 2 ^ 31 ∧ a.hi.natAbs ≤ 2 ^ 31 := by
  obtain ⟨hlo, hle, hhi⟩ := h
  unfold reach at hlo hhi
  omega

theorem checkedNegation?_eq (ha : a.InReach) : a.checkedNegation? = pure a.negation? := by
  obtain ⟨hlo, hhi⟩ := ha.natAbs_le
  rw [checkedNegation?, fit_eq (by omega), fit_eq (by omega)]
  rfl

theorem checkedComplement?_eq (ha : a.InReach) : a.checkedComplement? = pure a.complement? := by
  obtain ⟨hlo, hhi⟩ := ha.natAbs_le
  rw [checkedComplement?, complement?, fit_eq (by omega), fit_eq (by omega)]
  split <;> rfl

theorem checkedAbsolute_eq (ha : a.InReach) : a.checkedAbsolute = pure a.absolute := by
  obtain ⟨hlo, hhi⟩ := ha.natAbs_le
  rw [checkedAbsolute, fit_eq (by omega), fit_eq (by omega)]
  rfl

theorem checkedSum?_eq (ha : a.InReach) (hb : b.InReach) : a.checkedSum? b = pure (a.sum? b) := by
  obtain ⟨halo, hahi⟩ := ha.natAbs_le
  obtain ⟨hblo, hbhi⟩ := hb.natAbs_le
  rw [checkedSum?, fit_eq (by omega), fit_eq (by omega)]
  rfl

theorem checkedDifference?_eq (ha : a.InReach) (hb : b.InReach) :
    a.checkedDifference? b = pure (a.difference? b) := by
  obtain ⟨halo, hahi⟩ := ha.natAbs_le
  obtain ⟨hblo, hbhi⟩ := hb.natAbs_le
  rw [checkedDifference?, fit_eq (by omega), fit_eq (by omega)]
  rfl

theorem checkedProduct?_eq (ha : a.InReach) (hb : b.InReach) :
    a.checkedProduct? b = pure (a.product? b) := by
  obtain ⟨halo, hahi⟩ := ha.natAbs_le
  obtain ⟨hblo, hbhi⟩ := hb.natAbs_le
  have fits {x y : Int} (hx : x.natAbs ≤ 2 ^ 31) (hy : y.natAbs ≤ 2 ^ 31) :
      fit (x * y) = pure (x * y) := by
    have hle := Nat.mul_le_mul hx hy
    rw [← Int.natAbs_mul] at hle
    exact fit_eq (by omega)
  rw [checkedProduct?, fits halo hblo, fits halo hbhi, fits hahi hblo, fits hahi hbhi]
  rfl

theorem checkedQuotient?_eq (ha : a.InReach) : a.checkedQuotient? b = pure (a.quotient? b) := by
  obtain ⟨hlo, hhi⟩ := ha.natAbs_le
  rw [checkedQuotient?, quotient?]
  cases b.divisor? with
  | none => rfl
  | some d =>
    have fits {n : Int} (hn : n.natAbs ≤ 2 ^ 31) : fit (n.tdiv d) = pure (n.tdiv d) := by
      have hle := natAbs_tdiv_le n d
      exact fit_eq (by omega)
    dsimp only
    rw [fits hlo, fits hhi]
    rfl

theorem checkedRemainder?_eq (hb : b.InReach) : a.checkedRemainder? b = pure (a.remainder? b) := by
  rw [checkedRemainder?, remainder?]
  cases hd : b.divisor? with
  | none => rfl
  | some d =>
    obtain ⟨hpos, hle⟩ := bounds_of_divisor? hb hd
    unfold reach at hle
    have hlow : fit (-(d - 1)) = pure (-(d - 1)) := fit_eq (by omega)
    dsimp only
    rw [fit_eq (by omega), pure_bind, hlow]
    split <;> rfl

end Interval

section Computed

variable {left right operand : Option Interval}

theorem UnaryOp.checkedInterval?_eq (op : UnaryOp) (h : InReach? operand) :
    op.checkedInterval? (pure operand) = pure (op.interval? operand) := by
  cases operand with
  | none => cases op <;> rfl
  | some a =>
    cases op with
    | neg => exact Interval.checkedNegation?_eq (h a rfl)
    | not => exact Interval.checkedComplement?_eq (h a rfl)

theorem BinaryOp.checkedInterval?_eq (op : BinaryOp) (hleft : InReach? left)
    (hright : InReach? right) :
    op.checkedInterval? (pure left) (pure right) = pure (op.interval? left right) := by
  rw [checkedInterval?, interval?]
  split
  next => rfl
  next =>
    cases left with
    | none => rfl
    | some a =>
      cases right with
      | none => rfl
      | some b =>
        have ha := hleft a rfl
        have hb := hright b rfl
        cases op with
        | add => exact Interval.checkedSum?_eq ha hb
        | sub => exact Interval.checkedDifference?_eq ha hb
        | mul => exact Interval.checkedProduct?_eq ha hb
        | intDiv => exact Interval.checkedQuotient?_eq ha
        | mod => exact Interval.checkedRemainder?_eq hb
        | _ => rfl

theorem Intrinsic.checkedInterval?_eq (f : Intrinsic) {args : List (Option Interval)}
    (h : ∀ arg ∈ args, InReach? arg) :
    f.checkedInterval? (args.map pure) = pure (f.interval? args) := by
  rcases args with _ | ⟨arg, _ | ⟨other, rest⟩⟩ <;> simp only [List.map_cons, List.map_nil]
  · cases f <;> rfl
  · cases f
    case abs =>
      cases arg with
      | none => rfl
      | some a =>
        rw [checkedInterval?, pure_bind]
        dsimp only
        rw [Interval.checkedAbsolute_eq (h _ List.mem_cons_self a rfl), pure_bind]
        rfl
    all_goals rfl
  · cases f <;> rfl

end Computed

namespace Expr

variable {ν : Type} [Arithmetic ν] {states : String → RangeState}

mutual

/-- Nothing overflows on states with intervals within reach of zero. -/
theorem checkedInterval?_eq (h : StatesInReach states) :
    (e : Expr ν) → e.checkedInterval? states = pure (e.interval? states)
  | .number .. => rfl
  | .scalar _ => rfl
  | .unary op operand => by
    rw [checkedInterval?, checkedInterval?_eq h operand]
    exact op.checkedInterval?_eq (inReach_of_interval? h operand)
  | .binary op left right => by
    rw [checkedInterval?, checkedInterval?_eq h left, checkedInterval?_eq h right]
    exact op.checkedInterval?_eq (inReach_of_interval? h left) (inReach_of_interval? h right)
  | .intrinsic f args => by
    rw [checkedInterval?, checkedIntervalsOfList_eq h args]
    exact f.checkedInterval?_eq (inReach_of_intervalsOfList h args)
  | .string _ => rfl
  | .element .. => rfl
  | .call .. => rfl

theorem checkedIntervalsOfList_eq (h : StatesInReach states) :
    (es : List (Expr ν)) → checkedIntervalsOfList states es = (intervalsOfList states es).map pure
  | [] => rfl
  | e :: rest => congrArg₂ List.cons (checkedInterval?_eq h e) (checkedIntervalsOfList_eq h rest)

end

end Expr

/-! ## Soundness -/

namespace Expr

/-- The interval of an expression holds the number that it is evaluated to in an arithmetic that is
exact on integers, if the scalars have values in the intervals of their states and the strings that
occur are legal. In 64-bit arithmetic nothing overflows on the way to the interval. -/
theorem interval?_sound (states : String → RangeState) (e : Expr Float) :
    (∀ {ν : Type} [Arithmetic ν] [ExactIntegers ν] (read : Float → ν) (value : String → Option ν),
      (∀ x n, Arithmetic.integer? x = some n → read x = Arithmetic.ofInt n) →
      (∀ key n, value key = some n → ∀ i, (states key).interval? = some i → i.Admits n) →
      (∀ part ∈ e.subterms, ∀ s, (part.map read).evaluate? value = some (.string s) →
        s.length ≤ 255 ∧ ∀ c ∈ s.toList, c.toNat ≤ 255) →
      ∀ i n, e.interval? states = some i → (e.map read).evaluate? value = some (.number n) →
        i.Admits n) ∧
    (StatesInReach states → e.checkedInterval? states = .ok (e.interval? states)) := by
  refine ⟨fun {ν} _ _ read value hread hvalue hstrings i n hi hn => ?_,
    fun h => checkedInterval?_eq h e⟩
  have hR : BoundedReading states fun d v => (d.map read).evaluate? value = some v ∧
      ∀ part ∈ d.subterms, ∀ s, (part.map read).evaluate? value = some (.string s) →
        (Value.string s : Value ν).Legal :=
    { toReading := (reading_evaluate? read value).within _
      number := by
        rintro x written _ ⟨⟨rfl⟩, -⟩
        exact admittedBy_literalInterval? (hread x)
      scalar := by
        rintro name v ⟨h, -⟩ i n hi rfl
        obtain ⟨m, hm, ⟨rfl⟩⟩ := Option.map_eq_some_iff.1 h
        exact hvalue _ _ hm i hi
      legal := fun {d s} h => h.2 d d.self_mem_subterms s h.1 }
  exact hR.admitted ⟨hn, hstrings⟩ i n hi rfl

namespace HalvedDistance

/-- `ABS(X * 1000 - 7) \ 2 + LEN("AB")`. -/
def term : Expr Float :=
  .binary .add
    (.binary .intDiv
      (.intrinsic .abs [.binary .sub
        (.binary .mul (.scalar ⟨"X"⟩) (.number 1000 "1000")) (.number 7 "7")])
      (.number 2 "2"))
    (.intrinsic .len [.string "AB"])

def states (key : String) : RangeState := if key = "X" then .bounded ⟨-3, 4⟩ else .unassigned

def value (key : String) : Option Int := some (if key = "X" then -3 else 0)

def read (x : Float) : Int := (Number.integer? x).getD 0

theorem isIn_states (key : String) (n : Int) (hn : value key = some n) (i : Interval)
    (hi : (states key).interval? = some i) : i.Admits n := by
  obtain rfl := Option.some.inj hn
  rw [states] at hi
  split at hi <;> obtain rfl := Option.some.inj hi
  next hx => exact ⟨-3, ⟨by decide, by decide⟩, if_pos hx⟩
  next hx => exact ⟨0, ⟨by decide, by decide⟩, if_neg hx⟩

end HalvedDistance

open HalvedDistance in
/-- Where `X` is from -3 to 4 the term is from 0 to 2251; it is 1505 where `X` is -3. -/
theorem interval?_sound_halvedDistance :
    term.checkedInterval? states = .ok (some ⟨0, 2251⟩) ∧
      (term.map read).evaluate? value = some (.number 1505) ∧
      (⟨0, 2251⟩ : Interval).Admits (1505 : Int) := by
  obtain ⟨holds, fits⟩ := interval?_sound states term
  have hinterval : term.interval? states = some ⟨0, 2251⟩ := by decide +kernel
  have hvalue : (term.map read).evaluate? value = some (.number 1505) := by
    have hnumber : ((term.map read).evaluate? value).bind Value.number? = some 1505 := by
      decide +kernel
    obtain ⟨v, hv, hnumber⟩ := Option.bind_eq_some_iff.1 hnumber
    rw [hv, Value.number?_eq_some_iff.1 hnumber]
  have hstrings : term.subterms.all (fun part =>
      (((part.map read).evaluate? value).bind Value.string?).all fun s =>
        decide (s.length ≤ 255) && s.toList.all fun c => decide (c.toNat ≤ 255)) = true := by
    decide +kernel
  refine ⟨?_, hvalue, ?_⟩
  · rw [fits, hinterval]
    intro key i hi
    rw [states] at hi
    split at hi
    · exact RangeState.bounded.inj hi ▸ ⟨by decide, by decide, by decide⟩
    · cases hi
  · refine holds read value (fun x n hn => ?_) isIn_states (fun part hpart s hs => ?_) _ _ hinterval
      hvalue
    · have hread : (Number.integer? x).getD 0 = n := by
        rw [show Number.integer? x = some n from hn, Option.getD_some]
      exact hread
    · have hlegal := List.all_eq_true.1 hstrings part hpart
      rw [hs] at hlegal
      simpa [Value.string?] using hlegal

end Expr

end LineBasic
