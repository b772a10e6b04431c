import LineBasic.Number.Integers
import LineBasic.Proofs.ArrayLayout.Places
import LineBasic.Proofs.Expr.Environment

/-!
# The index expression

In exact arithmetic the expression for the place of an element has, in every environment in which
the subscripts are integers, the place as its value (`ArrayLayout.index_computes_place`). The
distances of the literal subscripts are folded into one number and those of the others are terms of
a sum; both parts together are the distances of all subscripts (`ArrayLayout.exists_parts`).
-/

namespace LineBasic

open Arithmetic

variable {ν : Type} [Arithmetic ν]

/-- The expression has an integer as its value. -/
def Expr.IsIn (env : Environment ν) (e : Expr ν) (n : Int) : Prop :=
  e.valueIn env = some (.number (Arithmetic.ofInt n))

section

variable {env : Environment ν} {d e : Expr ν} {m n : Int}

theorem Expr.isIn_ofInt (n : Int) : (Expr.ofInt n : Expr ν).IsIn env n := rfl

variable [FiniteIntegers ν]

/-- Operators on integers whose result is the integer `k`. -/
theorem Expr.IsIn.binary {op : BinaryOp} {k : Int} (hd : d.IsIn env m) (he : e.IsIn env n)
    (hresult : op.applyNumbers? (Arithmetic.ofInt m : ν) (Arithmetic.ofInt n) =
      Value.ofFinite? (Arithmetic.ofInt k)) :
    (Expr.binary op d e).IsIn env k := by
  have hfinite : Value.ofFinite? (Arithmetic.ofInt k : ν) = some (.number (Arithmetic.ofInt k)) :=
    if_pos (FiniteIntegers.isFinite_ofInt k)
  rw [Expr.IsIn, Expr.valueIn, hd, Option.bind_some, he, Option.bind_some, ← hfinite]
  exact hresult

theorem Expr.IsIn.add (hd : d.IsIn env m) (he : e.IsIn env n) :
    (Expr.binary .add d e).IsIn env (m + n) :=
  hd.binary he (congrArg Value.ofFinite? (ExactIntegers.add_ofInt m n))

theorem Expr.IsIn.sub (hd : d.IsIn env m) (he : e.IsIn env n) :
    (Expr.binary .sub d e).IsIn env (m - n) :=
  hd.binary he (congrArg Value.ofFinite? (ExactIntegers.sub_ofInt m n))

theorem Expr.IsIn.mul (hd : d.IsIn env m) (he : e.IsIn env n) :
    (Expr.binary .mul d e).IsIn env (m * n) :=
  hd.binary he (congrArg Value.ofFinite? (ExactIntegers.mul_ofInt m n))

/-- A sum of expressions, from left to right. -/
theorem Expr.IsIn.foldl_add (he : e.IsIn env n) {terms : List (Expr ν)} {values : List Int}
    (h : List.Forall₂ (Expr.IsIn env) terms values) :
    (terms.foldl (.binary .add) e).IsIn env (n + values.sum) := by
  induction h generalizing e n with
  | nil => rwa [List.sum_nil, add_zero]
  | cons hterm _ ih =>
    rw [List.foldl_cons, List.sum_cons, ← add_assoc]
    exact ih (he.add hterm)

end

namespace ArrayLayout

/-- The distance of a subscript from the base, times the stride. -/
def distance (base : Nat) (index : Int) (stride : Nat) : Int := (index - base) * stride

variable [FiniteIntegers ν] {env : Environment ν} {base : Nat} {indices : List (Expr ν)}
  {values : List Int}

/-- The term of a subscript; a base of 0 and a stride of 1 leave it as it is. -/
theorem isIn_term {index : Expr ν} {i : Int} (h : index.IsIn env i) (base stride : Nat) :
    (term base index stride).IsIn env (distance base i stride) := by
  have hdistance : (if base = 0 then index else .binary .sub index (.ofInt base)).IsIn env
      (i - base) := by
    split
    next hzero => rwa [hzero, Nat.cast_zero, sub_zero]
    next => exact h.sub (Expr.isIn_ofInt _)
  rw [term, distance]
  split
  next hone => rwa [hone, Nat.cast_one, mul_one]
  next => exact hdistance.mul (Expr.isIn_ofInt _)

/-- The part of the literals with one more subscript. -/
def addLiteral (base : Nat) (sum : ν) (subscript : Expr ν × Nat) : ν :=
  subscript.1.number?.elim sum fun value => sum + (value - ofInt base) * ofInt subscript.2

omit [FiniteIntegers ν] in
theorem literalPart_eq_foldl (base : Nat) (subscripts : List (Expr ν × Nat)) :
    literalPart base subscripts = subscripts.foldl (addLiteral base) zero := by
  unfold literalPart
  congr 1
  funext sum ⟨index, stride⟩
  dsimp only [addLiteral]
  cases index.number? <;> rfl

theorem addLiteral_of_number {index : Expr ν} {i : Int} (h : index.number? = some (ofInt i))
    (base stride : Nat) (a : Int) :
    addLiteral base (ofInt a : ν) (index, stride) = ofInt (a + distance base i stride) := by
  rw [addLiteral, h, Option.elim_some, ExactIntegers.sub_ofInt, ExactIntegers.mul_ofInt,
    ExactIntegers.add_ofInt, distance]

omit [FiniteIntegers ν] in
theorem addLiteral_of_none {index : Expr ν} (h : index.number? = none) (base stride : Nat)
    (sum : ν) : addLiteral base sum (index, stride) = sum := by
  rw [addLiteral, h, Option.elim_none]

omit [FiniteIntegers ν] in
/-- A literal has the value that it stands for. -/
theorem eq_ofInt_of_number {index : Expr ν} {i : Int} {value : ν} (h : index.IsIn env i)
    (hnumber : index.number? = some value) : value = ofInt i := by
  cases index with
  | number n =>
    obtain rfl : n = value := Option.some.inj hnumber
    have h : some (Value.number n) = some (.number (ofInt i)) := h
    exact Value.number.inj (Option.some.inj h)
  | _ => cases hnumber

/-- The literal subscripts make up a number and the others a list of terms. Together they are the
distances of all subscripts. -/
theorem exists_parts (base : Nat) (h : List.Forall₂ (Expr.IsIn env) indices values)
    (strides : List Nat) :
    ∃ (literal : Int) (others : List Int),
      literalPart base (indices.zip strides) = ofInt literal ∧
      List.Forall₂ (Expr.IsIn env)
        (((indices.zip strides).filter fun (index, _) => index.number?.isNone).map
          fun (index, stride) => term base index stride) others ∧
      literal + others.sum = (values.zipWith (distance base) strides).sum := by
  -- the number is formed by a fold, so its first value is arbitrary in the induction
  suffices parts : ∃ (literal : Int) (others : List Int),
      (∀ a : Int, (indices.zip strides).foldl (addLiteral base) (ofInt a : ν) =
        ofInt (a + literal)) ∧
      List.Forall₂ (Expr.IsIn env)
        (((indices.zip strides).filter fun (index, _) => index.number?.isNone).map
          fun (index, stride) => term base index stride) others ∧
      literal + others.sum = (values.zipWith (distance base) strides).sum by
    obtain ⟨literal, others, hliteral, hothers, hsum⟩ := parts
    refine ⟨literal, others, ?_, hothers, hsum⟩
    rw [literalPart_eq_foldl]
    have hzero := hliteral 0
    rwa [zero_add] at hzero
  induction h generalizing strides with
  | nil => exact ⟨0, [], fun a => by rw [add_zero]; rfl, .nil, rfl⟩
  | @cons index i indices values hindex hindices ih =>
    cases strides with
    | nil => exact ⟨0, [], fun a => by rw [add_zero]; rfl, .nil, rfl⟩
    | cons stride strides =>
      obtain ⟨literal, others, hliteral, hothers, hsum⟩ := ih strides
      simp only [List.zip_cons_cons, List.foldl_cons, List.zipWith_cons_cons, List.sum_cons]
      cases hnumber : index.number? with
      | none =>
        refine ⟨literal, distance base i stride :: others, fun a => ?_, ?_, ?_⟩
        · rw [addLiteral_of_none hnumber, hliteral]
        · rw [List.filter_cons_of_pos (by simp [hnumber]), List.map_cons]
          exact .cons (isIn_term hindex base stride) hothers
        · rw [List.sum_cons, add_left_comm, hsum]
      | some value =>
        obtain rfl := eq_ofInt_of_number hindex hnumber
        refine ⟨distance base i stride + literal, others, fun a => ?_, ?_, ?_⟩
        · rw [addLiteral_of_number hnumber, hliteral, add_assoc]
        · rwa [List.filter_cons_of_neg (by simp [hnumber])]
        · rw [add_assoc, hsum]

/-- The index expression is the sum of the distances. -/
theorem isIn_index? {l : ArrayLayout} {e : Expr ν} (he : l.index? indices = some e)
    (h : List.Forall₂ (Expr.IsIn env) indices values) :
    e.IsIn env (values.zipWith (distance l.base) l.strides).sum := by
  obtain ⟨literal, others, hliteral, hothers, hsum⟩ := exists_parts l.base h l.strides
  rw [index?, Option.ite_none_left_eq_some] at he
  replace he := he.2
  dsimp only at he
  rw [hliteral] at he
  rw [← hsum]
  -- without other subscripts the expression is the number itself
  split at he
  next hterms =>
    rw [hterms] at hothers
    obtain rfl := List.forall₂_nil_left_iff.1 hothers
    obtain rfl := Option.some.inj he
    rw [List.sum_nil, add_zero]
    exact Expr.isIn_ofInt literal
  next first rest hterms =>
    rw [hterms] at hothers
    obtain ⟨value, rest', hfirst, hrest, rfl⟩ := List.forall₂_cons_left_iff.1 hothers
    have hterms := hfirst.foldl_add hrest
    obtain rfl := Option.some.inj he
    rw [List.sum_cons, add_comm literal]
    split
    next hzero =>
      have hliteral : literal = 0 := by
        rw [isZero, zero, FiniteIntegers.same_ofInt] at hzero
        exact of_decide_eq_true hzero
      rwa [hliteral, add_zero]
    next => exact hterms.add (Expr.isIn_ofInt literal)

omit [FiniteIntegers ν] in
theorem index?_eq_none_iff {l : ArrayLayout} :
    l.index? indices = none ↔ indices.length ≠ l.rank := by
  rw [index?]
  split_ifs with hrank
  · exact ⟨fun _ => hrank, fun _ => rfl⟩
  · refine ⟨fun h => ?_, fun h => absurd h hrank⟩
    dsimp only at h
    split at h <;> cases h

/-- The place of an element is the sum of the distances of its subscripts. -/
theorem cast_offsetFrom? {bounds : List Int} {strides : List Nat} {n : Nat}
    (hlength : values.length = bounds.length)
    (h : offsetFrom? base values bounds strides = some n) :
    (n : Int) = (values.zipWith (distance base) strides).sum := by
  induction values, bounds, strides using offsetFrom?.induct base generalizing n with
  | case1 index values d bounds stride strides hin ih =>
    obtain ⟨-, m, hm, rfl⟩ := offsetFrom?_cons_eq_some_iff.1 h
    rw [List.zipWith_cons_cons, List.sum_cons, ← ih (Nat.succ.inj hlength) hm, distance]
    push_cast
    rw [Int.toNat_of_nonneg (by omega)]
  | case2 index values d bounds stride strides hout =>
    exact absurd (offsetFrom?_cons_eq_some_iff.1 h).1 hout
  | case3 values bounds strides hshape =>
    rw [offsetFrom?.eq_2 _ _ _ _ hshape] at h
    obtain rfl := Option.some.inj h
    rcases values with _ | ⟨index, values⟩
    · rfl
    · obtain ⟨d, bounds, rfl⟩ := List.exists_cons_of_length_eq_add_one hlength.symm
      rcases strides with _ | ⟨stride, strides⟩
      · rfl
      · exact absurd rfl (hshape index values d bounds stride strides rfl rfl)

/--
There is an index expression for every list with a subscript for each dimension. In exact arithmetic
it has the sum of the distances as its value wherever the subscripts are integers, which is the place
of the element if they are within the bounds.
-/
theorem index_computes_place (l : ArrayLayout) (indices : List (Expr ν)) :
    (l.index? indices = none ↔ indices.length ≠ l.rank) ∧
    ∀ e, l.index? indices = some e → ∀ (env : Environment ν) (values : List Int),
      List.Forall₂ (Expr.IsIn env) indices values →
        e.IsIn env (values.zipWith (distance l.base) l.strides).sum ∧
        ∀ n, l.offset? values = some n → e.IsIn env n := by
  refine ⟨index?_eq_none_iff, fun e he env values h => ⟨isIn_index? he h, fun n hn => ?_⟩⟩
  obtain ⟨hlength, hn⟩ := offset?_eq_some_iff.1 hn
  rw [cast_offsetFrom? hlength hn]
  exact isIn_index? he h

/-- The subscripts `I, 3, B(I)`. -/
noncomputable def mixedSubscripts : List (Expr Int) :=
  [.scalar ⟨"I"⟩, .ofInt 3, .element ⟨"B"⟩ [.scalar ⟨"I"⟩]]

/-- The environment with `I = 2` and `B(2) = 4`. -/
def fewValues : Environment Int where
  scalar name := if name = "I" then some (.number 2) else none
  element name subscripts := if name = "B" ∧ subscripts = [2] then some (.number 4) else none
  function _ _ := none

theorem index_computes_place_mixedSubscripts :
    ∃ l e, ofExtents? [5, 3, 4] 1 = some l ∧ l.offset? [2, 3, 4] = some 23 ∧
      l.index? mixedSubscripts = some e ∧ e.IsIn fewValues 23 := by
  have hI : (Name.mk "I").key = "I" := by decide +kernel
  have hB : (Name.mk "B").key = "B" := by decide +kernel
  have hscalar : (Expr.scalar ⟨"I"⟩).IsIn fewValues 2 := congrArg fewValues.scalar hI
  have helement : (Expr.element ⟨"B"⟩ [.scalar ⟨"I"⟩]).IsIn fewValues 4 := by
    rw [Expr.IsIn, Expr.valueIn, Expr.valuesIn, hscalar, hB]
    rfl
  have hvalues : List.Forall₂ (Expr.IsIn fewValues) mixedSubscripts [2, 3, 4] :=
    .cons hscalar (.cons (Expr.isIn_ofInt 3) (.cons helement .nil))
  let l : ArrayLayout := ⟨1, [5, 3, 4], [12, 4, 1], 60⟩
  have hindex := index_computes_place l mixedSubscripts
  obtain ⟨e, he⟩ := Option.ne_none_iff_exists'.1 (mt hindex.1.1 (by decide))
  exact ⟨l, e, by decide, by decide, he, (hindex.2 e he fewValues _ hvalues).2 23 (by decide)⟩

end ArrayLayout
end LineBasic
