import Mathlib.Data.Prod.Lex
import Mathlib.Order.CountableDenseLinearOrder
import LineBasic.Number.Real
import LineBasic.Proofs.Range.Condition

/-!
# Intersections of ranges

Where numbers are compared exactly, the intersection of ranges is the intersection of sets of
numbers. Each end of a range is a cut of the order, an upper end one of the opposite order, and the
narrower of two ends is the greater cut (`Bound.cut_narrower`). So a number is in an intersection if
and only if it is in both ranges, and from this follows what any number of ranges have in common, in
whatever order they come (`contains_intersection_iff`). If the order is dense and has neither a
least nor a greatest number, a range has no number, or one, or an interior and so at least two:
`isEmpty` and `isConstant` tell which (`intersection_exact`).
-/

namespace LineBasic

/-- The comparisons of the arithmetic are those of the order of its numbers. -/
class ExactComparisons (ν : Type) [Arithmetic ν] [LinearOrder ν] : Prop where
  same_iff {x y : ν} : Arithmetic.same x y = true ↔ x = y
  less_iff {x y : ν} : Arithmetic.less x y = true ↔ x < y
  atMost_iff {x y : ν} : Arithmetic.atMost x y = true ↔ x ≤ y

attribute [simp] ExactComparisons.same_iff ExactComparisons.less_iff ExactComparisons.atMost_iff

instance : ExactComparisons ℝ where
  same_iff := decide_eq_true_iff
  less_iff := decide_eq_true_iff
  atMost_iff := decide_eq_true_iff

namespace ValueRange

/-- A range to intersect with what is known. -/
structure Operand (ν : Type) where
  range : ValueRange ν
  /-- It is the first operand of the intersection, and what is known is the second. -/
  isFirst : Bool

variable {ν : Type} [Arithmetic ν]

/-- What is known after the range has been intersected with what was known before. -/
def Operand.meet (known : ValueRange ν) (o : Operand ν) : ValueRange ν :=
  if o.isFirst then o.range.intersect known else known.intersect o.range

/-- What is known after the ranges have been intersected one after the other. -/
def intersection (operands : List (Operand ν)) : ValueRange ν := operands.foldl Operand.meet all

/-- The ends leave room for numbers between them. -/
def HasInterior [LT ν] (r : ValueRange ν) : Prop :=
  ∀ a b, r.lower = some a → r.upper = some b → a.value < b.value

end ValueRange

variable {ν : Type} [Arithmetic ν] [LinearOrder ν] [ExactComparisons ν] {a b : Bound ν}
  {r s : ValueRange ν} {v x : ν} {isExclusive : Bool}

/-! ## Ends as cuts -/

namespace Bound

open OrderDual (toDual)

theorem isBelow_iff_le : a.isBelow x = true ↔
    a.value ≤ x ∧ (a.isExclusive = true → a.value < x) := by
  rw [isBelow]
  cases a.isExclusive with
  | true => simpa using le_of_lt
  | false => simp

theorem isAbove_iff_le : b.isAbove x = true ↔
    x ≤ b.value ∧ (b.isExclusive = true → x < b.value) := by
  rw [isAbove]
  cases b.isExclusive with
  | true => simpa using le_of_lt
  | false => simp

/-- The place of an end among all ends, from the widest on: an end that is left out comes right
after the same end that is not. -/
def cut {ρ : Type} (rank : ν → ρ) (a : Bound ν) : ρ ×ₗ Bool := toLex (rank a.value, a.isExclusive)

theorem isBelow_iff_cut_le : a.isBelow x = true ↔ a.cut id ≤ toLex (x, false) := by
  rw [cut, Prod.Lex.toLex_le_toLex, isBelow]
  cases a.isExclusive <;> simp [le_iff_lt_or_eq]

theorem isAbove_iff_cut_le : b.isAbove x = true ↔ b.cut toDual ≤ toLex (toDual x, false) := by
  rw [cut, Prod.Lex.toLex_le_toLex, isAbove]
  cases b.isExclusive <;> simp [le_iff_lt_or_eq, @eq_comm _ x]

/-- The narrower of two ends is the greater cut. -/
theorem cut_narrower {ρ : Type} [LinearOrder ρ] {rank : ν → ρ} {isNarrower : ν → ν → Bool}
    (hrank : Function.Injective rank)
    (hnarrower : ∀ x y, isNarrower x y = true ↔ rank y < rank x) (a b : Bound ν) :
    (ValueRange.narrower isNarrower a b).cut rank = max (a.cut rank) (b.cut rank) := by
  have cut_le {a b : Bound ν} (h : rank a.value < rank b.value) : a.cut rank ≤ b.cut rank :=
    Prod.Lex.toLex_le_toLex.2 (.inl h)
  rw [ValueRange.narrower]
  split
  next hsame =>
    -- of two ends with one number, the one that is left out is the greater cut
    have hmono : Monotone fun isExclusive => (⟨b.value, isExclusive⟩ : Bound ν).cut rank :=
      fun _ _ h => Prod.Lex.toLex_le_toLex.2 (.inr ⟨rfl, h⟩)
    obtain ⟨value, isExclusive⟩ := a
    obtain rfl : value = b.value := ExactComparisons.same_iff.1 hsame
    exact hmono.map_max
  next hsame =>
    have hne : a.value ≠ b.value := fun h => hsame (ExactComparisons.same_iff.2 h)
    split
    next hlt => exact (max_eq_left (cut_le ((hnarrower _ _).1 hlt))).symm
    next hlt =>
      have hle : rank a.value ≤ rank b.value := not_lt.1 fun h => hlt ((hnarrower _ _).2 h)
      exact (max_eq_right (cut_le (hle.lt_of_ne (hrank.ne hne)))).symm

theorem isBelow_narrower_eq (a b : Bound ν) :
    (ValueRange.narrower (fun x y => Arithmetic.less y x) a b).isBelow x =
      (a.isBelow x && b.isBelow x) := by
  have hnarrower (x y : ν) : Arithmetic.less y x = true ↔ id y < id x := ExactComparisons.less_iff
  rw [Bool.eq_iff_iff, Bool.and_eq_true]
  simp only [isBelow_iff_cut_le, cut_narrower Function.injective_id hnarrower, max_le_iff]

theorem isAbove_narrower_eq (a b : Bound ν) :
    (ValueRange.narrower Arithmetic.less a b).isAbove x = (a.isAbove x && b.isAbove x) := by
  have hnarrower (x y : ν) : Arithmetic.less x y = true ↔ toDual y < toDual x :=
    ExactComparisons.less_iff
  rw [Bool.eq_iff_iff, Bool.and_eq_true]
  simp only [isAbove_iff_cut_le, cut_narrower toDual.injective hnarrower, max_le_iff]

end Bound

namespace ValueRange

/-! ## Numbers in intersections -/

theorem contains_intersect_iff :
    (r.intersect s).contains x = true ↔ r.contains x = true ∧ s.contains x = true := by
  have hlower : (r.intersect s).lower.all (fun a => a.isBelow x) =
      (r.lower.all (fun a => a.isBelow x) && s.lower.all fun a => a.isBelow x) :=
    Option.all_merge Bound.isBelow_narrower_eq
  have hupper : (r.intersect s).upper.all (fun b => b.isAbove x) =
      (r.upper.all (fun b => b.isAbove x) && s.upper.all fun b => b.isAbove x) :=
    Option.all_merge Bound.isAbove_narrower_eq
  rw [contains, hlower, hupper]
  simp only [contains, Bool.and_eq_true]
  exact and_and_and_comm

theorem contains_meet_iff {o : Operand ν} :
    (o.meet r).contains x = true ↔ r.contains x = true ∧ o.range.contains x = true := by
  rw [Operand.meet]
  split
  · rw [contains_intersect_iff, and_comm]
  · exact contains_intersect_iff

theorem contains_foldl_meet_iff (known : ValueRange ν) (operands : List (Operand ν)) :
    (operands.foldl Operand.meet known).contains x = true ↔
      known.contains x = true ∧ ∀ o ∈ operands, o.range.contains x = true := by
  induction operands generalizing known with
  | nil => simp
  | cons o rest ih =>
    rw [List.foldl_cons, ih, contains_meet_iff, List.forall_mem_cons, and_assoc]

theorem contains_intersection_iff {ranges : List (ValueRange ν)} {operands : List (Operand ν)}
    (horder : (operands.map Operand.range).Perm ranges) :
    (intersection operands).contains x = true ↔ ∀ r ∈ ranges, r.contains x = true := by
  have hall : (all : ValueRange ν).contains x = true := rfl
  calc (intersection operands).contains x = true
      ↔ ∀ o ∈ operands, o.range.contains x = true := by
        rw [intersection, contains_foldl_meet_iff, and_iff_right hall]
    _ ↔ ∀ r ∈ operands.map Operand.range, r.contains x = true := by rw [List.forall_mem_map]
    _ ↔ ∀ r ∈ ranges, r.contains x = true := by simp only [horder.mem_iff]

/-! ## Ranges with no number, with one, and with more -/

@[simp] theorem contains_exactly_iff : (exactly v).contains x = true ↔ x = v := by
  show (Arithmetic.atMost v x && Arithmetic.atMost x v) = true ↔ x = v
  rw [Bool.and_eq_true, ExactComparisons.atMost_iff, ExactComparisons.atMost_iff, and_comm]
  exact le_antisymm_iff.symm

@[simp] theorem contains_above_iff : (above v isExclusive).contains x = true ↔
    if isExclusive then v < x else v ≤ x := by
  cases isExclusive <;> simp [contains, above, Bound.isBelow]

@[simp] theorem contains_below_iff : (below v isExclusive).contains x = true ↔
    if isExclusive then x < v else x ≤ v := by
  cases isExclusive <;> simp [contains, below, Bound.isAbove]

theorem not_contains_of_isEmpty (h : r.isEmpty = true) : ¬ r.contains x = true := by
  intro hx
  obtain ⟨hlower, hupper⟩ := contains_iff.1 hx
  rcases r with ⟨_ | a, _ | b⟩
  case some.some =>
    obtain ⟨hle, hlt⟩ := Bound.isBelow_iff_le.1 (hlower a rfl)
    obtain ⟨hle', hlt'⟩ := Bound.isAbove_iff_le.1 (hupper b rfl)
    simp only [isEmpty, Bool.or_eq_true, Bool.and_eq_true, ExactComparisons.less_iff,
      ExactComparisons.same_iff] at h
    rcases h with h | ⟨heq, h | h⟩
    · exact (hle.trans hle').not_gt h
    · exact (hlt h).not_ge (hle'.trans heq.ge)
    · exact (hlt' h).not_ge (heq.ge.trans hle)
  all_goals cases h

theorem isConstant_iff_eq_exactly : r.isConstant = true ↔ ∃ v, r = exactly v := by
  constructor
  · intro h
    rcases r with ⟨_ | ⟨v, isExclusive⟩, _ | ⟨w, isExclusive'⟩⟩
    case some.some =>
      simp only [isConstant, Bool.and_eq_true, ExactComparisons.same_iff, Bool.not_eq_true'] at h
      obtain ⟨⟨rfl, rfl⟩, rfl⟩ := h
      exact ⟨v, rfl⟩
    all_goals cases h
  · rintro ⟨v, rfl⟩
    simp [isConstant, exactly]

theorem isEmpty_or_isConstant_or_hasInterior (r : ValueRange ν) :
    r.isEmpty = true ∨ r.isConstant = true ∨ r.HasInterior := by
  rcases r with ⟨_ | ⟨v, isExclusive⟩, _ | ⟨w, isExclusive'⟩⟩
  case some.some =>
    rcases lt_trichotomy v w with h | rfl | h
    · refine .inr (.inr ?_)
      rintro _ _ ⟨rfl⟩ ⟨rfl⟩
      exact h
    · cases isExclusive <;> cases isExclusive' <;> simp [isEmpty, isConstant]
    · simp [isEmpty, h]
  all_goals exact .inr (.inr nofun)

theorem contains_of_between (hlower : ∀ a, r.lower = some a → a.value < x)
    (hupper : ∀ b, r.upper = some b → x < b.value) : r.contains x = true :=
  contains_iff.2 ⟨fun a ha => Bound.isBelow_iff_le.2 ⟨(hlower a ha).le, fun _ => hlower a ha⟩,
    fun b hb => Bound.isAbove_iff_le.2 ⟨(hupper b hb).le, fun _ => hupper b hb⟩⟩

variable [DenselyOrdered ν] [NoMinOrder ν] [NoMaxOrder ν]

omit [ExactComparisons ν] in
theorem HasInterior.exists_between (h : r.HasInterior) :
    ∃ x, (∀ a, r.lower = some a → a.value < x) ∧ ∀ b, r.upper = some b → x < b.value := by
  have : Nonempty ν := ⟨Arithmetic.zero⟩
  -- the numbers of the ends as finite sets, so that a missing end is no case of its own
  have hends : ∀ v ∈ (r.lower.map Bound.value).toFinset,
      ∀ w ∈ (r.upper.map Bound.value).toFinset, v < w := by
    simp only [Option.mem_toFinset, Option.mem_map]
    rintro _ ⟨a, ha, rfl⟩ _ ⟨b, hb, rfl⟩
    exact h a b ha hb
  obtain ⟨x, hlower, hupper⟩ := Order.exists_between_finsets _ _ hends
  exact ⟨x, by simpa using hlower, by simpa using hupper⟩

/-- An interior has two numbers: one between the ends, and one between that and the lower end. -/
theorem HasInterior.exists_lt (h : r.HasInterior) :
    ∃ x y, x < y ∧ r.contains x = true ∧ r.contains y = true := by
  obtain ⟨y, hlower, hupper⟩ := h.exists_between
  have hbelow : HasInterior ⟨r.lower, some ⟨y, true⟩⟩ := by
    rintro a _ ha ⟨rfl⟩
    exact hlower a ha
  obtain ⟨x, hlower', hx⟩ := hbelow.exists_between
  have hlt : x < y := hx _ rfl
  exact ⟨x, y, hlt, contains_of_between hlower' fun b hb => hlt.trans (hupper b hb),
    contains_of_between hlower hupper⟩

theorem isEmpty_iff_forall : r.isEmpty = true ↔ ∀ x, ¬ r.contains x = true := by
  refine ⟨fun h x => not_contains_of_isEmpty h, fun h => ?_⟩
  rcases isEmpty_or_isConstant_or_hasInterior r with hempty | hconstant | hinterior
  · exact hempty
  · obtain ⟨v, rfl⟩ := isConstant_iff_eq_exactly.1 hconstant
    exact absurd (contains_exactly_iff.2 rfl) (h v)
  · obtain ⟨x, -, -, hx, -⟩ := hinterior.exists_lt
    exact absurd hx (h x)

theorem isConstant_iff_existsUnique : r.isConstant = true ↔ ∃! x, r.contains x = true := by
  constructor
  · intro h
    obtain ⟨v, rfl⟩ := isConstant_iff_eq_exactly.1 h
    exact ⟨v, contains_exactly_iff.2 rfl, fun x => contains_exactly_iff.1⟩
  · rintro ⟨v, hv, hunique⟩
    rcases isEmpty_or_isConstant_or_hasInterior r with hempty | hconstant | hinterior
    · exact absurd hv (not_contains_of_isEmpty hempty)
    · exact hconstant
    · obtain ⟨x, y, hlt, hx, hy⟩ := hinterior.exists_lt
      exact absurd ((hunique x hx).trans (hunique y hy).symm) hlt.ne

/--
Ranges that are intersected one after the other, in any order and with either operand first, have
the numbers that are in all of them. There is no such number if and only if the intersection is
empty, and exactly one if and only if it is constant.
-/
theorem intersection_exact {ranges : List (ValueRange ν)} {operands : List (Operand ν)}
    (horder : (operands.map Operand.range).Perm ranges) :
    (∀ x, (intersection operands).contains x = true ↔ ∀ r ∈ ranges, r.contains x = true) ∧
      ((intersection operands).isEmpty = true ↔ ∀ x, ¬ (intersection operands).contains x = true) ∧
      ((intersection operands).isConstant = true ↔
        ∃! x, (intersection operands).contains x = true) :=
  ⟨fun _ => contains_intersection_iff horder, isEmpty_iff_forall, isConstant_iff_existsUnique⟩

/-- A number that is at least and at most 10 is 10, and so it is below 20. -/
theorem intersection_exact_meetingEnds :
    let ranges : List (ValueRange ℝ) := [above 10 false, below 20 true, below 10 false]
    let operands : List (Operand ℝ) :=
      [⟨below 10 false, true⟩, ⟨above 10 false, false⟩, ⟨below 20 true, true⟩]
    (operands.map Operand.range).Perm ranges ∧
      (∀ x, (intersection operands).contains x = true ↔ x = 10) ∧
      ¬ (intersection operands).isEmpty = true ∧ (intersection operands).isConstant = true := by
  intro ranges operands
  have horder : (operands.map Operand.range).Perm ranges :=
    (List.perm_append_singleton (below 10 false) [above 10 false, below 20 true]).symm
  obtain ⟨hcontains, hempty, hconstant⟩ := intersection_exact horder
  have hten (x : ℝ) : (intersection operands).contains x = true ↔ x = 10 := by
    rw [hcontains]
    simp only [ranges, List.forall_mem_cons, contains_above_iff, contains_below_iff]
    constructor
    · rintro ⟨hge, -, hle, -⟩
      exact le_antisymm hle hge
    · rintro rfl
      norm_num
  exact ⟨horder, hten, fun h => hempty.1 h 10 ((hten 10).2 rfl),
    hconstant.2 ⟨10, (hten 10).2 rfl, fun x => (hten x).1⟩⟩

end ValueRange
end LineBasic
