import Std.Data.String.ToInt
import Mathlib.Data.Option.Basic
import LineBasic.Expr.Reduction
import LineBasic.Number.Exact
import LineBasic.Proofs.Expr.Key

/-!
# Values of expressions

An expression keeps its value when more scalars get one (`Expr.evaluate?_mono`), so a constant is
the value of the expression for all values of scalars. In exact arithmetic, expressions that are
built from integers by operators on integers (`Expr.IsInteger`) have the same value if they have the
same key (`Expr.IsInteger.evaluate?_eq_of_key_eq`).
-/

namespace LineBasic

/-! ## Values of operators -/

section

variable {ν : Type} [Arithmetic ν]

omit [Arithmetic ν] in
theorem Value.number?_eq_some_iff {v : Value ν} {n : ν} : v.number? = some n ↔ v = .number n := by
  cases v <;> simp [number?]

/-- Operators on numbers give numbers. -/
theorem BinaryOp.exists_number_of_applyNumbers? {op : BinaryOp} {a b : ν} {v : Value ν}
    (h : op.applyNumbers? a b = some v) : ∃ n, v = .number n := by
  have finite {n : ν} (h : Value.ofFinite? n = some v) : ∃ n, v = .number n := by
    rw [Value.ofFinite?, Option.ite_none_right_eq_some] at h
    exact ⟨n, (Option.some.inj h.2).symm⟩
  cases op <;> simp only [BinaryOp.applyNumbers?] at h
  case add | sub | mul | pow => exact finite h
  case div => exact finite (Option.ite_none_left_eq_some.1 h).2
  case eq | ne | lt | le | gt | ge => exact ⟨_, (Option.some.inj h).symm⟩
  all_goals
    simp only [bind, Option.bind_eq_some_iff, pure, Option.some.injEq] at h
    obtain ⟨x, -, y, -, w, -, rfl⟩ := h
    exact ⟨_, rfl⟩

namespace Expr

variable {f g : String → Option ν} {v : Value ν}

theorem evaluate?_unary_eq_some_iff {op : UnaryOp} {operand : Expr ν} :
    (Expr.unary op operand).evaluate? f = some v ↔
      ∃ n m, operand.evaluate? f = some (.number n) ∧ op.result? n = some m ∧ v = .number m := by
  simp only [evaluate?, bind, Option.bind_eq_some_iff, pure, Option.some.injEq]
  constructor
  · rintro ⟨x, hx, n, hn, m, hm, rfl⟩
    cases x with
    | number k =>
      obtain rfl : k = n := Option.some.inj hn
      exact ⟨k, m, hx, hm, rfl⟩
    | string s => cases hn
  · rintro ⟨n, m, hn, hm, rfl⟩
    exact ⟨_, hn, n, rfl, m, hm, rfl⟩

theorem evaluate?_binary_eq_some_iff {op : BinaryOp} {left right : Expr ν} :
    (Expr.binary op left right).evaluate? f = some v ↔
      ∃ x y, left.evaluate? f = some x ∧ right.evaluate? f = some y ∧ op.result? x y = some v := by
  simp only [evaluate?, bind, Option.bind_eq_some_iff]
  exact ⟨fun ⟨x, hx, y, hy, h⟩ => ⟨x, y, hx, hy, h⟩, fun ⟨x, y, hx, hy, h⟩ => ⟨x, hx, y, hy, h⟩⟩

mutual

/-- An expression keeps its value when its scalars keep theirs. -/
theorem evaluate?_of_agree :
    ∀ {e : Expr ν} {v : Value ν},
      (∀ name, .scalar name ∈ e.subterms → ∀ n, f name.key = some n → g name.key = some n) →
      e.evaluate? f = some v → e.evaluate? g = some v
  | .number .., _, _, h => h
  | .string _, _, _, h => h
  | .scalar name, v, hfg, h => by
    simp only [evaluate?, Option.map_eq_some_iff] at h ⊢
    obtain ⟨n, hn, rfl⟩ := h
    exact ⟨n, hfg name (List.mem_singleton_self _) n hn, rfl⟩
  | .element .., _, _, h => by simp [evaluate?] at h
  | .unary op operand, v, hfg, h => by
    rw [evaluate?_unary_eq_some_iff] at h ⊢
    obtain ⟨n, m, hn, hm, hv⟩ := h
    exact ⟨n, m, evaluate?_of_agree (fun name hname => hfg name (List.mem_cons_of_mem _ hname)) hn,
      hm, hv⟩
  | .binary op left right, v, hfg, h => by
    rw [evaluate?_binary_eq_some_iff] at h ⊢
    obtain ⟨x, y, hx, hy, hv⟩ := h
    refine ⟨x, y, evaluate?_of_agree (fun name hname => ?_) hx,
      evaluate?_of_agree (fun name hname => ?_) hy, hv⟩
    · exact hfg name (List.mem_cons_of_mem _ (List.mem_append_left _ hname))
    · exact hfg name (List.mem_cons_of_mem _ (List.mem_append_right _ hname))
  | .intrinsic function args, v, hfg, h => by
    simp only [evaluate?, bind, Option.bind_eq_some_iff] at h ⊢
    obtain ⟨values, hvalues, hv⟩ := h
    have hargs := evaluateList?_of_agree
      (fun name hname => hfg name (List.mem_cons_of_mem _ hname)) hvalues
    exact ⟨values, hargs, hv⟩
  | .call .., _, _, h => by simp [evaluate?] at h

theorem evaluateList?_of_agree :
    ∀ {es : List (Expr ν)} {vs : List (Value ν)},
      (∀ name, .scalar name ∈ subtermsOfList es → ∀ n, f name.key = some n → g name.key = some n) →
      evaluateList? f es = some vs → evaluateList? g es = some vs
  | [], _, _, h => h
  | e :: rest, vs, hfg, h => by
    simp only [evaluateList?, bind, Option.bind_eq_some_iff] at h ⊢
    obtain ⟨v, hv, others, hothers, hvs⟩ := h
    refine ⟨v, evaluate?_of_agree (fun name hname => ?_) hv, others,
      evaluateList?_of_agree (fun name hname => ?_) hothers, hvs⟩
    · exact hfg name (List.mem_append_left _ hname)
    · exact hfg name (List.mem_append_right _ hname)

end

/-- An expression keeps its value when more scalars get a value. -/
theorem evaluate?_mono (hfg : ∀ name n, f name = some n → g name = some n) {e : Expr ν}
    (h : e.evaluate? f = some v) : e.evaluate? g = some v :=
  evaluate?_of_agree (fun name _ => hfg name.key) h

/-- A constant is the value of the expression for all values of scalars. -/
theorem evaluate?_of_constant? {e : Expr ν} (h : e.constant? = some v) (f : String → Option ν) :
    e.evaluate? f = some v :=
  evaluate?_mono nofun h

theorem evaluate?_of_constantNumber? {e : Expr ν} {n : ν} (h : e.constantNumber? = some n)
    (f : String → Option ν) : e.evaluate? f = some (.number n) := by
  obtain ⟨v, hv, hn⟩ := Option.bind_eq_some_iff.1 h
  cases v with
  | number m =>
    obtain rfl : m = n := Option.some.inj hn
    exact evaluate?_of_constant? hv f
  | string s => cases hn

end Expr

end

/-! ## Expressions of integers in exact arithmetic -/

namespace Expr

/-- Built from integers and scalars by operators that are not division or exponentiation. -/
def IsInteger : Expr Int → Prop
  | .number .. => True
  | .scalar name => name.IsVariable
  | .unary _ operand => operand.IsInteger
  | .binary op left right => op ≠ .div ∧ op ≠ .pow ∧ left.IsInteger ∧ right.IsInteger
  | _ => False

variable {value : String → Option Int} {d e : Expr Int} {v : Value Int}

theorem isNumeral_toString (n : Int) : IsNumeral (toString n).toList := by
  have digits (m : Nat) : ∃ c rest, (Nat.repr m).toList = c :: rest ∧ c.isDigit := by
    have hne : (Nat.repr m).toList ≠ [] := by simp
    obtain ⟨c, rest, hs⟩ := List.exists_cons_of_ne_nil hne
    have hmem : c ∈ (Nat.repr m).toList := by simp [hs]
    rw [Nat.repr_eq_ofList_toDigits, String.toList_ofList] at hmem
    exact ⟨c, rest, hs, Nat.isDigit_of_mem_toDigits (by decide) (by decide) hmem⟩
  have inside (m : Nat) : ∀ c ∈ (Nat.repr m).toList, ¬ endsWord c := by
    intro c hc hend
    rw [Nat.repr_eq_ofList_toDigits, String.toList_ofList] at hc
    have hdigit : c.isDigit := Nat.isDigit_of_mem_toDigits (by decide) (by decide) hc
    simp only [endsWord, Bool.or_eq_true, beq_iff_eq] at hend
    rcases hend with ((rfl | rfl) | rfl) | rfl <;> exact absurd hdigit (by decide)
  rw [Int.toString_eq_repr, Int.repr_eq_if]
  split
  · obtain ⟨c, rest, hs, hc⟩ := digits n.toNat
    exact ⟨⟨c, rest, .inl hs, .inl hc⟩, inside _⟩
  · obtain ⟨c, rest, hs, hc⟩ := digits (-n).toNat
    refine ⟨⟨c, rest, .inr (by simp [hs]), .inl hc⟩, fun c hc => ?_⟩
    rw [String.toList_append, List.mem_append] at hc
    rcases hc with hc | hc
    · obtain rfl : c = '-' := by simpa using hc
      decide
    · exact inside _ c hc

instance : NumeralTexts Int where
  text_cases n := .inl (isNumeral_toString n)

theorem IsInteger.legible : ∀ {e : Expr Int}, e.IsInteger → e.Legible
  | .number value _, _ => by
    rw [Legible]
    exact isNumeral_toString value
  | .scalar _, h => by
    rw [IsInteger] at h
    rwa [Legible]
  | .unary _ operand, h => by
    rw [IsInteger] at h
    rw [Legible]
    exact h.legible
  | .binary _ left right, h => by
    rw [IsInteger] at h
    rw [Legible]
    exact ⟨h.2.2.1.legible, h.2.2.2.legible⟩

theorem IsInteger.exists_number : ∀ {e : Expr Int}, e.IsInteger → ∀ {v : Value Int},
    e.evaluate? value = some v → ∃ n, v = .number n
  | .number n _, _, _, hv => ⟨n, (Option.some.inj hv).symm⟩
  | .scalar name, _, _, hv => by
    obtain ⟨n, -, rfl⟩ := Option.map_eq_some_iff.1 hv
    exact ⟨n, rfl⟩
  | .unary op operand, _, _, hv => by
    obtain ⟨-, m, -, -, rfl⟩ := evaluate?_unary_eq_some_iff.1 hv
    exact ⟨m, rfl⟩
  | .binary op left right, h, _, hv => by
    rw [IsInteger] at h
    obtain ⟨x, y, hx, hy, hv⟩ := evaluate?_binary_eq_some_iff.1 hv
    obtain ⟨a, rfl⟩ := h.2.2.1.exists_number hx
    obtain ⟨b, rfl⟩ := h.2.2.2.exists_number hy
    exact BinaryOp.exists_number_of_applyNumbers? hv

/-- The value of a binary expression of integers. -/
theorem IsInteger.evaluate?_binary_iff {op : BinaryOp} (hd : d.IsInteger) (he : e.IsInteger) :
    (Expr.binary op d e).evaluate? value = some v ↔
      ∃ a b, d.evaluate? value = some (.number a) ∧ e.evaluate? value = some (.number b) ∧
        op.applyNumbers? a b = some v := by
  rw [evaluate?_binary_eq_some_iff]
  constructor
  · rintro ⟨x, y, hx, hy, hv⟩
    obtain ⟨a, rfl⟩ := hd.exists_number hx
    obtain ⟨b, rfl⟩ := he.exists_number hy
    exact ⟨a, b, hx, hy, hv⟩
  · rintro ⟨a, b, ha, hb, hv⟩
    exact ⟨_, _, ha, hb, hv⟩

end Expr

/-! ### Operators on integers -/

/-- Sums, products and comparisons for equality do not depend on the order of the operands. -/
class Arithmetic.Commutes (ν : Type) [Arithmetic ν] : Prop where
  add_comm (a b : ν) : a + b = b + a
  mul_comm (a b : ν) : a * b = b * a
  same_comm (a b : ν) : same a b = same b a

instance : Arithmetic.Commutes Int where
  add_comm := Int.add_comm
  mul_comm := Int.mul_comm
  same_comm _ _ := Bool.beq_comm

namespace BinaryOp

variable {op : BinaryOp} {a b : Int} {v : Value Int}

theorem applyNumbers?_add (a b : Int) : add.applyNumbers? a b = some (.number (a + b)) := rfl

theorem applyNumbers?_sub (a b : Int) : sub.applyNumbers? a b = some (.number (a - b)) := rfl

theorem applyNumbers?_mul (a b : Int) : mul.applyNumbers? a b = some (.number (a * b)) := rfl

theorem applyNumbers?_relational (h : op.isRelational) (a b : Int) :
    op.applyNumbers? a b =
      some (.truth (op.accepts (a == b) (decide (a < b)) (decide (b < a)))) := by
  cases op <;> first | rfl | cases h

/-- The inverted relation accepts just what the relation does not. -/
theorem accepts_inverted {op' : BinaryOp} (h : op.inverted? = some op')
    {same less greater : Bool}
    (hone : same = true ∧ less = false ∧ greater = false ∨
      same = false ∧ less = true ∧ greater = false ∨
        same = false ∧ less = false ∧ greater = true) :
    op'.accepts same less greater = !op.accepts same less greater := by
  obtain ⟨rfl, rfl, rfl⟩ | ⟨rfl, rfl, rfl⟩ | ⟨rfl, rfl, rfl⟩ := hone <;>
    cases op <;> cases h <;> rfl

/-- The operators that take 16-bit integers. -/
def takesWords (op : BinaryOp) : Bool := op.isLogical || op == .intDiv || op == .mod

theorem applyNumbers?_words {ν : Type} [Arithmetic ν] (h : op.takesWords) (a b : ν) :
    op.applyNumbers? a b = (Arithmetic.word? a).bind fun x => (Arithmetic.word? b).bind fun y =>
      (op.applyWords? x y).bind fun w => some (.number (Arithmetic.ofInt w)) := by
  cases op <;> first | rfl | cases h

theorem applyWords?_of_isLogical (h : op.isLogical) (a b : Int) :
    op.applyWords? a b = some (op.bitwise a b) := by
  cases op <;> first | rfl | cases h

theorem takesWords_of_isLogical (h : op.isLogical) : op.takesWords := by
  rw [takesWords, h]
  rfl

theorem applyNumbers?_words_iff (h : op.takesWords) :
    op.applyNumbers? a b = some v ↔ Arithmetic.IsWord16 a ∧ Arithmetic.IsWord16 b ∧
      ∃ w, op.applyWords? a b = some w ∧ v = .number w := by
  rw [applyNumbers?_words h]
  simp only [Option.bind_eq_some_iff, Arithmetic.word?_int_eq_some_iff, Arithmetic.ofInt_int,
    Option.some.injEq]
  constructor
  · rintro ⟨x, ⟨ha, rfl⟩, y, ⟨hb, rfl⟩, w, hw, rfl⟩
    exact ⟨ha, hb, w, hw, rfl⟩
  · rintro ⟨ha, hb, w, hw, rfl⟩
    exact ⟨a, ⟨ha, rfl⟩, b, ⟨hb, rfl⟩, w, hw, rfl⟩

/-- Commutative operators give the same value for numbers in either order. -/
theorem applyNumbers?_comm {ν : Type} [Arithmetic ν] [Arithmetic.Commutes ν]
    (h : op.isCommutative) (a b : ν) : op.applyNumbers? a b = op.applyNumbers? b a := by
  have words (hop : op.takesWords) (hbits : ∀ x y, op.applyWords? x y = op.applyWords? y x) :
      op.applyNumbers? a b = op.applyNumbers? b a := by
    rw [applyNumbers?_words hop, applyNumbers?_words hop]
    cases Arithmetic.word? a with
    | none => cases Arithmetic.word? b <;> rfl
    | some x =>
      cases Arithmetic.word? b with
      | none => rfl
      | some y =>
        dsimp only [Option.bind_some]
        rw [hbits x y]
  cases op <;> try cases h
  case add =>
    unfold applyNumbers?
    dsimp only
    rw [Arithmetic.Commutes.add_comm]
  case mul =>
    unfold applyNumbers?
    dsimp only
    rw [Arithmetic.Commutes.mul_comm]
  case eq | ne =>
    unfold applyNumbers?
    dsimp only [accepts]
    rw [Arithmetic.Commutes.same_comm]
  case and => exact words rfl fun x y => by simp only [applyWords?, bitwise, BitVec.and_comm]
  case or => exact words rfl fun x y => by simp only [applyWords?, bitwise, BitVec.or_comm]
  case xor | eqv => exact words rfl fun x y => by simp only [applyWords?, bitwise, BitVec.xor_comm]

end BinaryOp

namespace Expr

/-- The order of the operands of commutative operators has no influence on the value. -/
theorem IsInteger.evaluate?_eq_of_reordered (value : String → Option Int) :
    ∀ {d e : Expr Int}, d.Reordered e → d.IsInteger → e.IsInteger →
      d.evaluate? value = e.evaluate? value
  | _, _, .number htext, _, _ => by
    rw [evaluate?, evaluate?, Int.repr_injective htext]
  | _, _, .scalar hkey, _, _ => by rw [evaluate?, evaluate?, hkey]
  | _, _, .unary op h, hd, he => by
    rw [IsInteger] at hd he
    rw [evaluate?, evaluate?, IsInteger.evaluate?_eq_of_reordered value h hd he]
  | _, _, .binary op hleft hright, hd, he => by
    rw [IsInteger] at hd he
    rw [evaluate?, evaluate?, IsInteger.evaluate?_eq_of_reordered value hleft hd.2.2.1 he.2.2.1,
      IsInteger.evaluate?_eq_of_reordered value hright hd.2.2.2 he.2.2.2]
  | _, _, .swapped hop hleft hright, hd, he => by
    rw [IsInteger] at hd he
    have hl := IsInteger.evaluate?_eq_of_reordered value hleft hd.2.2.1 he.2.2.2
    have hr := IsInteger.evaluate?_eq_of_reordered value hright hd.2.2.2 he.2.2.1
    ext v
    rw [hd.2.2.1.evaluate?_binary_iff hd.2.2.2, he.2.2.1.evaluate?_binary_iff he.2.2.2, hl, hr]
    constructor
    · rintro ⟨a, b, ha, hb, hv⟩
      exact ⟨b, a, hb, ha, BinaryOp.applyNumbers?_comm hop b a ▸ hv⟩
    · rintro ⟨a, b, ha, hb, hv⟩
      exact ⟨b, a, hb, ha, BinaryOp.applyNumbers?_comm hop b a ▸ hv⟩

/-- Expressions of integers with the same key have the same value. -/
theorem IsInteger.evaluate?_eq_of_key_eq {value : String → Option Int} {d e : Expr Int}
    (hd : d.IsInteger) (he : e.IsInteger) (h : d.key = e.key) :
    d.evaluate? value = e.evaluate? value :=
  IsInteger.evaluate?_eq_of_reordered value (reordered_of_key_eq hd.legible he.legible h) hd he

end Expr
end LineBasic
