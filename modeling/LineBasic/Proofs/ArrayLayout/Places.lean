import Mathlib.Algebra.Order.BigOperators.Group.List
import Mathlib.Data.List.Lex
import LineBasic.Proofs.ArrayLayout.RowMajor

/-!
# Places of elements

A layout gives every element of its array a place of its own. The places are the numbers below the
size, in the lexicographic order of the subscripts, and subscripts that are no element have no place
(`ArrayLayout.ofExtents_numbersElements`). The sums and products that are formed on the way to a
place are below the size as well, so none of them leaves the words of the machine.
-/

namespace LineBasic.ArrayLayout

/-- The subscripts of an element: one from the base to the bound for each dimension. -/
def IsElement (base : Nat) (bounds indices : List Int) : Prop :=
  List.Forall₂ (fun d index => (base : Int) ≤ index ∧ index ≤ d) bounds indices

/-- What is added up to a place: the distances from the base, each times its stride, up to the first
subscript that is out of bounds. -/
def distances (base : Nat) : List Int → List Int → List Nat → List Nat
  | index :: indices, d :: bounds, stride :: strides =>
    if (base : Int) ≤ index ∧ index ≤ d then
      (index - base).toNat * stride :: distances base indices bounds strides
    else []
  | _, _, _ => []

section

variable {base : Nat} {bounds : List Int} {counts : List Nat}

theorem offsetFrom?_cons_eq_some_iff {index d : Int} {indices : List Int} {stride : Nat}
    {strides : List Nat} {n : Nat} :
    offsetFrom? base (index :: indices) (d :: bounds) (stride :: strides) = some n ↔
      ((base : Int) ≤ index ∧ index ≤ d) ∧ ∃ m, offsetFrom? base indices bounds strides = some m ∧
        (index - base).toNat * stride + m = n := by
  rw [offsetFrom?, Option.ite_none_right_eq_some, Option.map_eq_some_iff]

/-- A place is the sum of the distances. -/
theorem eq_sum_distances {indices : List Int} {strides : List Nat} {n : Nat}
    (h : offsetFrom? base indices bounds strides = some n) :
    n = (distances base indices bounds strides).sum := by
  induction indices, bounds, strides using distances.induct base generalizing n with
  | case1 index indices d bounds stride strides hin ih =>
    obtain ⟨-, m, hm, rfl⟩ := offsetFrom?_cons_eq_some_iff.1 h
    rw [distances, if_pos hin, List.sum_cons, ← ih hm]
  | case2 index indices d bounds stride strides hout =>
    exact absurd (offsetFrom?_cons_eq_some_iff.1 h).1 hout
  | case3 indices bounds strides hshape =>
    rw [distances.eq_2 _ _ _ _ hshape]
    rw [offsetFrom?.eq_2 _ _ _ _ hshape] at h
    exact (Option.some.inj h).symm

/-- A distance is less than the count times the stride. -/
theorem distance_add_lt {index d : Int} {count stride m : Nat} (hcount : count? base d = some count)
    (hle : index ≤ d) (hm : m < stride) : (index - base).toNat * stride + m < count * stride := by
  have hlt : (index - base).toNat + 1 ≤ count := by
    have := count?_eq_some_iff.1 hcount
    omega
  calc (index - base).toNat * stride + m
      < (index - base).toNat * stride + stride := Nat.add_lt_add_left hm _
    _ = ((index - base).toNat + 1) * stride := (Nat.succ_mul ..).symm
    _ ≤ count * stride := Nat.mul_le_mul_right _ hlt

theorem Counts.prod_pos (h : Counts base bounds counts) : 0 < counts.prod := List.prod_pos h.pos

/-- Whatever the subscripts, the distances that are added up stay below the size. -/
theorem Counts.sum_distances_lt (h : Counts base bounds counts) (indices : List Int) :
    (distances base indices bounds (stridesOf counts)).sum < counts.prod := by
  induction h generalizing indices with
  | nil => cases indices <;> exact Nat.one_pos
  | @cons d count bounds counts hcount hcounts ih =>
    have hpos : 0 < (count :: counts).prod := Counts.prod_pos (.cons hcount hcounts)
    cases indices with
    | nil => exact hpos
    | cons index indices =>
      rw [stridesOf, distances]
      split
      next hin =>
        rw [List.sum_cons, List.prod_cons]
        exact distance_add_lt hcount hin.2 (ih indices)
      next => exact hpos

/-- Of the lists with a subscript for each dimension, just the elements have a place. -/
theorem Counts.exists_offset_iff (h : Counts base bounds counts) {indices : List Int} :
    (indices.length = bounds.length ∧ ∃ n, offsetFrom? base indices bounds (stridesOf counts) =
      some n) ↔ IsElement base bounds indices := by
  rw [IsElement]
  induction h generalizing indices with
  | nil => cases indices <;> simp [offsetFrom?]
  | @cons d count bounds counts hcount hcounts ih =>
    cases indices with
    | nil => simp
    | cons index indices =>
      simp only [List.length_cons, Nat.add_right_cancel_iff, stridesOf,
        offsetFrom?_cons_eq_some_iff, List.forall₂_cons, ← ih]
      constructor
      · rintro ⟨hlength, -, hin, m, hm, -⟩
        exact ⟨hin, hlength, m, hm⟩
      · rintro ⟨hin, hlength, m, hm⟩
        exact ⟨hlength, _, hin, m, hm, rfl⟩

/-- Every number below the size is the place of an element: its quotient by the first stride gives
the first subscript, and its remainder the others. -/
theorem Counts.exists_element (h : Counts base bounds counts) {n : Nat} (hn : n < counts.prod) :
    ∃ indices, IsElement base bounds indices ∧
      offsetFrom? base indices bounds (stridesOf counts) = some n := by
  induction h generalizing n with
  | nil =>
    obtain rfl : n = 0 := Nat.lt_one_iff.1 hn
    exact ⟨[], .nil, rfl⟩
  | @cons d count bounds counts hcount hcounts ih =>
    rw [List.prod_cons] at hn
    have hpos := Counts.prod_pos hcounts
    obtain ⟨indices, helement, hoffset⟩ := ih (Nat.mod_lt n hpos)
    obtain ⟨quotient, hquotient⟩ : ∃ quotient, n / counts.prod = quotient := ⟨_, rfl⟩
    have hlt : quotient < count := hquotient ▸ Nat.div_lt_of_lt_mul (Nat.mul_comm .. ▸ hn)
    have hin : (base : Int) ≤ base + quotient ∧ base + quotient ≤ d := by
      have := (count?_eq_some_iff.1 hcount).1
      omega
    refine ⟨(base + quotient) :: indices, .cons hin helement, ?_⟩
    rw [stridesOf, offsetFrom?_cons_eq_some_iff]
    refine ⟨hin, n % counts.prod, hoffset, ?_⟩
    rw [add_sub_cancel_left, Int.toNat_natCast, ← hquotient]
    exact Nat.div_add_mod' n counts.prod

/-- Places follow the lexicographic order of the subscripts. -/
theorem Counts.lt_of_lt (h : Counts base bounds counts) {indices indices' : List Int} {n n' : Nat}
    (hlength : indices.length = bounds.length) (hlength' : indices'.length = bounds.length)
    (hn : offsetFrom? base indices bounds (stridesOf counts) = some n)
    (hn' : offsetFrom? base indices' bounds (stridesOf counts) = some n')
    (hlt : indices < indices') : n < n' := by
  induction h generalizing indices indices' n n' with
  | nil =>
    rw [List.length_eq_zero_iff.1 hlength, List.length_eq_zero_iff.1 hlength'] at hlt
    exact absurd hlt (lt_irrefl _)
  | @cons d count bounds counts hcount hcounts ih =>
    obtain ⟨index, indices, rfl⟩ := List.exists_cons_of_length_eq_add_one hlength
    obtain ⟨index', indices', rfl⟩ := List.exists_cons_of_length_eq_add_one hlength'
    rw [stridesOf] at hn hn'
    obtain ⟨hin, m, hm, rfl⟩ := offsetFrom?_cons_eq_some_iff.1 hn
    obtain ⟨hin', m', hm', rfl⟩ := offsetFrom?_cons_eq_some_iff.1 hn'
    rcases List.cons_lt_cons_iff.1 hlt with hfirst | ⟨rfl, hrest⟩
    · have hm : m < counts.prod := by
        rw [eq_sum_distances hm]
        exact Counts.sum_distances_lt hcounts indices
      have hle : (index - base).toNat + 1 ≤ (index' - base).toNat := by omega
      calc (index - base).toNat * counts.prod + m
          < ((index - base).toNat + 1) * counts.prod := by
            rw [Nat.succ_mul]
            exact Nat.add_lt_add_left hm _
        _ ≤ (index' - base).toNat * counts.prod := Nat.mul_le_mul_right _ hle
        _ ≤ (index' - base).toNat * counts.prod + m' := Nat.le_add_right ..
    · have hlength := Nat.succ.inj hlength
      have hlength' := Nat.succ.inj hlength'
      exact Nat.add_lt_add_left (ih hlength hlength' hm hm' hrest) _

end

/-- The layout numbers the elements of an array with these bounds. -/
structure NumbersElements (l : ArrayLayout) (base : Nat) (bounds : List Int) : Prop where
  size : (l.size : Int) = (bounds.map fun d => d - (base : Int) + 1).prod
  /-- The elements have a place, and no other subscripts have one. -/
  element : ∀ indices, (∃ n, l.offset? indices = some n) ↔ IsElement base bounds indices
  lt_size : ∀ indices n, l.offset? indices = some n → n < l.size
  /-- Every number below the size is the place of one element. -/
  onto : ∀ n < l.size, ∃! indices, l.offset? indices = some n
  /-- The places are in the lexicographic order of the subscripts. -/
  order : ∀ indices indices' n n', l.offset? indices = some n → l.offset? indices' = some n' →
    (indices < indices' ↔ n < n')
  /-- A place is the sum of the distances from the base, each times its stride. -/
  sum : ∀ indices n, l.offset? indices = some n →
    n = (distances base indices bounds l.strides).sum
  /-- Whatever the subscripts, no product and no sum of products that is formed exceeds a word. -/
  fits : ∀ (indices : List Int) (part : List Nat),
    part.Sublist (distances base indices bounds l.strides) → part.sum < 2 ^ 64
  /-- The distance from the base of a subscript within its bounds, and the strides, fit words. -/
  fits_factors : (∀ d ∈ bounds, ∀ index, (base : Int) ≤ index → index ≤ d →
    index - base < 2 ^ 63) ∧ ∀ stride ∈ l.strides, stride < 2 ^ 64

theorem offset?_eq_some_iff {l : ArrayLayout} {indices : List Int} {n : Nat} :
    l.offset? indices = some n ↔ indices.length = l.extents.length ∧
      offsetFrom? l.base indices l.extents l.strides = some n := by
  rw [offset?, rank, Option.ite_none_right_eq_some]

theorem mem_stridesOf_le {counts : List Nat} (hpos : ∀ count ∈ counts, 0 < count) :
    ∀ stride ∈ stridesOf counts, stride ≤ counts.prod := by
  induction counts with
  | nil => exact nofun
  | cons count rest ih =>
    obtain ⟨hcount, hrest⟩ := List.forall_mem_cons.1 hpos
    have hle : rest.prod ≤ (count :: rest).prod := by
      rw [List.prod_cons]
      exact Nat.le_mul_of_pos_left _ hcount
    exact List.forall_mem_cons.2 ⟨hle, fun stride h => (ih hrest stride h).trans hle⟩

theorem numbersElements_of_counts {base : Nat} {bounds : List Int} {counts : List Nat}
    (h : Counts base bounds counts) (hlimit : counts.prod < sizeLimit) :
    NumbersElements ⟨base, bounds, stridesOf counts, counts.prod⟩ base bounds := by
  let l : ArrayLayout := ⟨base, bounds, stridesOf counts, counts.prod⟩
  have ordered {indices indices' : List Int} {n n' : Nat} (hn : l.offset? indices = some n)
      (hn' : l.offset? indices' = some n') (hlt : indices < indices') : n < n' := by
    obtain ⟨hlength, hn⟩ := offset?_eq_some_iff.1 hn
    obtain ⟨hlength', hn'⟩ := offset?_eq_some_iff.1 hn'
    exact h.lt_of_lt hlength hlength' hn hn' hlt
  have unique {indices indices' : List Int} {n : Nat} (hn : l.offset? indices = some n)
      (hn' : l.offset? indices' = some n) : indices = indices' := by
    rcases lt_trichotomy indices indices' with hlt | heq | hgt
    · exact absurd (ordered hn hn' hlt) (lt_irrefl n)
    · exact heq
    · exact absurd (ordered hn' hn hgt) (lt_irrefl n)
  constructor
  case size =>
    show ((counts.prod : Nat) : Int) = _
    rw [Nat.cast_list_prod, h.map_cast]
  case element =>
    intro indices
    simp only [offset?_eq_some_iff, exists_and_left]
    exact h.exists_offset_iff
  case lt_size =>
    intro indices n hn
    rw [eq_sum_distances (offset?_eq_some_iff.1 hn).2]
    exact h.sum_distances_lt indices
  case onto =>
    intro n hn
    obtain ⟨indices, helement, hoffset⟩ := h.exists_element hn
    have hplace : l.offset? indices = some n :=
      offset?_eq_some_iff.2 ⟨(h.exists_offset_iff.2 helement).1, hoffset⟩
    exact ⟨indices, hplace, fun indices' h' => unique h' hplace⟩
  case order =>
    intro indices indices' n n' hn hn'
    refine ⟨ordered hn hn', fun hlt => ?_⟩
    rcases lt_trichotomy indices indices' with hlt' | rfl | hgt
    · exact hlt'
    · rw [Option.some.inj (hn.symm.trans hn')] at hlt
      exact absurd hlt (lt_irrefl n')
    · exact absurd (ordered hn' hn hgt) (not_lt_of_gt hlt)
  case sum => exact fun indices n hn => eq_sum_distances (offset?_eq_some_iff.1 hn).2
  case fits =>
    intro indices part hpart
    calc part.sum ≤ (distances base indices bounds (stridesOf counts)).sum :=
          hpart.sum_le_sum fun _ _ => Nat.zero_le _
      _ < counts.prod := h.sum_distances_lt indices
      _ < 2 ^ 64 := hlimit
  case fits_factors =>
    refine ⟨fun d hd index hbase hindex => ?_, fun stride hstride => ?_⟩
    · have := (exists_counts_iff.1 ⟨counts, h⟩ d hd).2
      rw [countLimit] at this
      omega
    · exact (mem_stridesOf_le h.pos stride hstride).trans_lt hlimit

/--
There is a layout for given bounds if and only if every dimension has at least one subscript and
fewer than `2 ^ 63` of them, and the array has fewer than `2 ^ 64` elements. The layout numbers the
elements.
-/
theorem ofExtents_numbersElements (bounds : List Int) (base : Nat) :
    ((∃ l, ofExtents? bounds base = some l) ↔
      (∀ d ∈ bounds, 0 < d - (base : Int) + 1 ∧ d - (base : Int) + 1 < 2 ^ 63) ∧
        (bounds.map fun d => d - (base : Int) + 1).prod < 2 ^ 64) ∧
    ∀ l, ofExtents? bounds base = some l → l.NumbersElements base bounds := by
  have hprod {counts : List Nat} (h : Counts base bounds counts) :
      (bounds.map fun d => d - (base : Int) + 1).prod < 2 ^ 64 ↔ counts.prod < sizeLimit := by
    rw [← h.map_cast, ← Nat.cast_list_prod, sizeLimit]
    omega
  refine ⟨⟨?_, ?_⟩, ?_⟩
  · rintro ⟨l, hl⟩
    obtain ⟨counts, hcounts, hlt, -⟩ := ofExtents?_eq_some_iff.1 hl
    exact ⟨exists_counts_iff.1 ⟨counts, hcounts⟩, (hprod hcounts).2 hlt⟩
  · rintro ⟨hbounds, hlt⟩
    obtain ⟨counts, hcounts⟩ := exists_counts_iff.2 hbounds
    exact ⟨_, ofExtents?_eq_some_iff.2 ⟨counts, hcounts, (hprod hcounts).1 hlt, rfl⟩⟩
  · intro l hl
    obtain ⟨counts, hcounts, hlt, rfl⟩ := ofExtents?_eq_some_iff.1 hl
    exact numbersElements_of_counts hcounts hlt

example : (ofExtents? [4294967295, 4294967294] 0).isSome ∧
    ofExtents? [4294967295, 4294967295] 0 = none := by
  decide

end LineBasic.ArrayLayout
