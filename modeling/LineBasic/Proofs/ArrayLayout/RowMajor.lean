import Mathlib.Algebra.BigOperators.Ring.Finset
import Mathlib.Algebra.Order.BigOperators.GroupWithZero.List
import Mathlib.Algebra.Order.Ring.Nat
import LineBasic.ArrayLayout

/-!
# Row-major layouts

The strides and the size of an array are products that are formed step by step, each of them below a
limit. Where all counts are positive, every such product is below the limit if the product of all
counts is, so a layout exists if and only if that one is (`ArrayLayout.ofExtents?_eq_some_iff`), and
it is row-major (`ArrayLayout.isRowMajor_of_ofExtents?`).
-/

namespace LineBasic.ArrayLayout

/-- The products of the counts to the right of each dimension. -/
def stridesOf : List Nat → List Nat
  | [] => []
  | _ :: rest => rest.prod :: stridesOf rest

theorem length_stridesOf (counts : List Nat) : (stridesOf counts).length = counts.length := by
  induction counts with
  | nil => rfl
  | cons count rest ih => rw [stridesOf, List.length_cons, ih, List.length_cons]

theorem stride_of_stridesOf {counts : List Nat} {k stride : Nat}
    (h : (stridesOf counts)[k]? = some stride) : stride = (counts.drop (k + 1)).prod := by
  induction counts generalizing k with
  | nil => cases h
  | cons count rest ih =>
    cases k with
    | zero => exact (Option.some.inj h).symm
    | succ k => exact ih h

/-! ## Counts -/

theorem count?_eq_some_iff {base count : Nat} {d : Int} :
    count? base d = some count ↔ (count : Int) = d - base + 1 ∧ 0 < count ∧ count < countLimit := by
  rw [count?, Option.ite_none_right_eq_some, Option.some.injEq, countLimit]
  omega

/-- The numbers of subscripts from the base to each bound. -/
def Counts (base : Nat) (bounds : List Int) (counts : List Nat) : Prop :=
  List.Forall₂ (fun d count => count? base d = some count) bounds counts

theorem mapM_count?_eq_some_iff {base : Nat} {bounds : List Int} {counts : List Nat} :
    bounds.mapM (count? base) = some counts ↔ Counts base bounds counts := by
  rw [Counts]
  induction bounds generalizing counts with
  | nil => simp [eq_comm]
  | cons d rest ih =>
    simp only [List.mapM_cons, bind, Option.bind_eq_some_iff, pure, Option.some.injEq, ih,
      List.forall₂_cons_left_iff]
    constructor
    · rintro ⟨count, hcount, counts, hcounts, rfl⟩
      exact ⟨count, counts, hcount, hcounts, rfl⟩
    · rintro ⟨count, counts, hcount, hcounts, rfl⟩
      exact ⟨count, hcount, counts, hcounts, rfl⟩

theorem Counts.map_cast {base : Nat} {bounds : List Int} {counts : List Nat}
    (h : Counts base bounds counts) :
    counts.map Nat.cast = bounds.map fun d => d - (base : Int) + 1 := by
  induction h with
  | nil => rfl
  | cons hcount _ ih => rw [List.map_cons, List.map_cons, ih, (count?_eq_some_iff.1 hcount).1]

theorem Counts.pos {base : Nat} {bounds : List Int} {counts : List Nat}
    (h : Counts base bounds counts) : ∀ count ∈ counts, 0 < count := by
  induction h with
  | nil => exact nofun
  | cons hcount _ ih => exact List.forall_mem_cons.2 ⟨(count?_eq_some_iff.1 hcount).2.1, ih⟩

/-- The counts exist if every dimension has subscripts and not too many. -/
theorem exists_counts_iff {base : Nat} {bounds : List Int} :
    (∃ counts, Counts base bounds counts) ↔
      ∀ d ∈ bounds, 0 < d - (base : Int) + 1 ∧ d - (base : Int) + 1 < countLimit := by
  constructor
  · rintro ⟨counts, h⟩
    induction h with
    | nil => exact nofun
    | cons hcount _ ih =>
      obtain ⟨heq, hpos, hlt⟩ := count?_eq_some_iff.1 hcount
      refine List.forall_mem_cons.2 ⟨?_, ih⟩
      omega
  · intro h
    induction bounds with
    | nil => exact ⟨[], .nil⟩
    | cons d rest ih =>
      obtain ⟨⟨hpos, hlt⟩, hrest⟩ := List.forall_mem_cons.1 h
      obtain ⟨counts, hcounts⟩ := ih hrest
      refine ⟨(d - base + 1).toNat :: counts, .cons (count?_eq_some_iff.2 ?_) hcounts⟩
      omega

/-! ## Products below the limit -/

theorem product?_eq_some_iff {a b n : Nat} :
    product? a b = some n ↔ n = a * b ∧ a * b < sizeLimit := by
  rw [product?, Option.ite_none_right_eq_some, Option.some.injEq]
  exact ⟨fun h => ⟨h.2.symm, h.1⟩, fun h => ⟨h.2, h.1.symm⟩⟩

/-- All products on the way to the last one divide it. -/
theorem foldlM_product?_eq_some_iff {counts : List Nat} (hpos : ∀ count ∈ counts, 0 < count)
    {a n : Nat} (ha : a < sizeLimit) :
    counts.foldlM product? a = some n ↔ n = a * counts.prod ∧ a * counts.prod < sizeLimit := by
  induction counts generalizing a with
  | nil =>
    rw [List.foldlM_nil, List.prod_nil, Nat.mul_one]
    exact ⟨fun h => ⟨(Option.some.inj h).symm, ha⟩, fun h => congrArg some h.1.symm⟩
  | cons count rest ih =>
    obtain ⟨-, hrest⟩ := List.forall_mem_cons.1 hpos
    have hprod : 0 < rest.prod := List.prod_pos hrest
    rw [List.foldlM_cons, List.prod_cons, ← Nat.mul_assoc]
    simp only [bind, Option.bind_eq_some_iff, product?_eq_some_iff]
    constructor
    · rintro ⟨_, ⟨rfl, hlt⟩, h⟩
      exact (ih hrest hlt).1 h
    · intro h
      have hlt : a * count < sizeLimit := Nat.lt_of_le_of_lt (Nat.le_mul_of_pos_right _ hprod) h.2
      exact ⟨a * count, ⟨rfl, hlt⟩, (ih hrest hlt).2 h⟩

theorem size?_eq_some_iff {counts : List Nat} (hpos : ∀ count ∈ counts, 0 < count) {n : Nat} :
    size? counts = some n ↔ n = counts.prod ∧ counts.prod < sizeLimit := by
  have h := foldlM_product?_eq_some_iff hpos (n := n) (a := 1) (by decide)
  rwa [Nat.one_mul] at h

theorem eq_stridesOf {counts strides : List Nat} (h : strides? counts = some strides) :
    strides = stridesOf counts := by
  induction counts using strides?.induct generalizing strides with
  | case1 => exact (Option.some.inj h).symm
  | case2 _ => exact (Option.some.inj h).symm
  | case3 _ count rest ih =>
    simp only [strides?, bind, Option.bind_eq_some_iff, pure, Option.some.injEq] at h
    obtain ⟨strides, hstrides, stride, hstride, rfl⟩ := h
    obtain rfl := ih hstrides
    rw [(product?_eq_some_iff.1 hstride).1, stridesOf, stridesOf, stridesOf, List.headD_cons,
      List.prod_cons, Nat.mul_comm]

theorem strides?_eq_some {counts : List Nat} (hpos : ∀ count ∈ counts, 0 < count)
    (hlt : counts.prod < sizeLimit) : strides? counts = some (stridesOf counts) := by
  induction counts using strides?.induct with
  | case1 => rfl
  | case2 _ => rfl
  | case3 first count rest ih =>
    obtain ⟨hfirst, hrest⟩ := List.forall_mem_cons.1 hpos
    have hle : (count :: rest).prod ≤ (first :: count :: rest).prod := by
      rw [List.prod_cons (a := first)]
      exact Nat.le_mul_of_pos_left _ hfirst
    have hlt' := Nat.lt_of_le_of_lt hle hlt
    have hstride : product? rest.prod count = some (count :: rest).prod := by
      rw [product?_eq_some_iff, Nat.mul_comm, ← List.prod_cons]
      exact ⟨rfl, hlt'⟩
    rw [strides?, ih hrest hlt', stridesOf, stridesOf]
    exact (Option.bind_some ..).trans (by rw [List.headD_cons, hstride]; rfl)

/-! ## Layouts -/

theorem ofExtents?_eq_some_iff {base : Nat} {bounds : List Int} {l : ArrayLayout} :
    ofExtents? bounds base = some l ↔ ∃ counts, Counts base bounds counts ∧
      counts.prod < sizeLimit ∧ l = ⟨base, bounds, stridesOf counts, counts.prod⟩ := by
  simp only [ofExtents?, bind, Option.bind_eq_some_iff, mapM_count?_eq_some_iff, pure,
    Option.some.injEq]
  constructor
  · rintro ⟨counts, hcounts, strides, hstrides, size, hsize, rfl⟩
    obtain ⟨rfl, hlt⟩ := (size?_eq_some_iff (hcounts.pos)).1 hsize
    exact ⟨counts, hcounts, hlt, by rw [eq_stridesOf hstrides]⟩
  · rintro ⟨counts, hcounts, hlt, rfl⟩
    exact ⟨counts, hcounts, _, strides?_eq_some (hcounts.pos) hlt, _,
      (size?_eq_some_iff (hcounts.pos)).2 ⟨rfl, hlt⟩, rfl⟩

/-- The layout stores elements with subscripts from the base up to the bounds in row-major order:
the stride of a dimension is the number of elements for each of its subscripts. -/
structure IsRowMajor (l : ArrayLayout) (b : Nat) (bounds : List Int) : Prop where
  base : l.base = b
  extents : l.extents = bounds
  rank : l.strides.length = bounds.length
  size : (l.size : Int) = (bounds.map fun d : Int => d - b + 1).prod
  stride : ∀ (k stride : Nat), l.strides[k]? = some stride →
    (stride : Int) = ((bounds.drop (k + 1)).map fun d : Int => d - b + 1).prod

theorem isRowMajor_of_ofExtents? {base : Nat} {bounds : List Int} {l : ArrayLayout}
    (h : ofExtents? bounds base = some l) : l.IsRowMajor base bounds := by
  obtain ⟨counts, hcounts, -, rfl⟩ := ofExtents?_eq_some_iff.1 h
  have product (n : Nat) : (((counts.drop n).prod : Nat) : Int) =
      ((bounds.drop n).map fun d => d - (base : Int) + 1).prod := by
    rw [Nat.cast_list_prod, List.map_drop, hcounts.map_cast, List.map_drop]
  refine ⟨rfl, rfl, ?_, product 0, fun k stride hstride => ?_⟩
  · exact (length_stridesOf counts).trans hcounts.length_eq.symm
  · rw [stride_of_stridesOf hstride]
    exact product (k + 1)

end LineBasic.ArrayLayout
