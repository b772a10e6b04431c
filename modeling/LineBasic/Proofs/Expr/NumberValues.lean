import LineBasic.Proofs.Expr.Reading
import LineBasic.Proofs.Number.Scientific
import LineBasic.Proofs.Range.Interval

/-!
# Values that are numbers

The value that is "not a number" does not arise: where the literals of an expression and the values
of its scalars are numbers, so is every number that it is evaluated to
(`Expr.isNumeric_of_evaluate?`).
-/

namespace LineBasic

open Arithmetic Number

variable {x y : Float}

/-! ## Numbers -/

namespace Number

theorem isNumber_of_isFinite (h : isFinite x = true) : IsNumber x := by
  intro hx
  have hfinite : (!x.toModel.unpack.isNaN && !x.toModel.unpack.isInf) = true := h
  rw [hx] at hfinite
  cases hfinite

theorem isNumber_of_integer? {n : Int} (h : integer? x = some n) : IsNumber x := by
  intro hx
  rw [integer?, hx] at h
  cases h

/-- Integers that are not too large are numbers. -/
theorem isNumber_ofInt {n : Int} (h : n.natAbs < 2 ^ 53) : IsNumber (ofInt n) :=
  isNumber_of_integer? (integer?_ofInt h)

theorem isNumber_neg (h : IsNumber x) : IsNumber (-x) := by
  have hx : parts x ≠ .notANumber := h
  show parts (-x) ≠ .notANumber
  rw [parts_neg]
  cases hparts : parts x with
  | notANumber => exact absurd hparts hx
  | infinity | zero | finite => nofun

end Number

/-! ## Results of operators -/

/-- If the value is a number, it is one. -/
def Value.IsNumeric (v : Value Float) : Prop := ∀ n, v = .number n → IsNumber n

theorem Value.isNumeric_number (h : IsNumber x) : (Value.number x).IsNumeric := by
  rintro _ ⟨rfl⟩
  exact h

theorem Value.isNumeric_string (s : String) : (Value.string s).IsNumeric := nofun

theorem Value.isNumeric_truth (b : Bool) : (Value.truth b).IsNumeric :=
  isNumeric_number (isNumber_ofInt (by cases b <;> decide))

theorem Value.isNumeric_ofFinite? {v : Value Float} (h : ofFinite? x = some v) : v.IsNumeric := by
  obtain ⟨hfinite, h⟩ := Option.ite_none_right_eq_some.1 h
  exact Option.some.inj h ▸ isNumeric_number (isNumber_of_isFinite hfinite)

theorem natAbs_of_word? {w : Int} (h : word? x = some w) : w.natAbs ≤ 32768 := by
  have hbounds := (Option.filter_eq_some_iff.1 h).2
  simp only [Bool.and_eq_true, decide_eq_true_eq] at hbounds
  omega

theorem UnaryOp.isNumber_of_result? {op : UnaryOp} (hx : IsNumber x)
    (h : op.result? x = some y) : IsNumber y := by
  cases op with
  | neg => exact Option.some.inj h ▸ isNumber_neg hx
  | not =>
    obtain ⟨w, hw, rfl⟩ := Option.map_eq_some_iff.1 h
    have hsize := natAbs_of_word? hw
    exact isNumber_ofInt (by omega)

namespace BinaryOp

variable {op : BinaryOp} {v w u : Value Float}

/-- The result of an operator on words is as small as a word. -/
theorem natAbs_of_applyWords? {a b c : Int} (ha : a.natAbs ≤ 32768)
    (h : op.applyWords? a b = some c) : c.natAbs ≤ 32768 := by
  have bits (h : some (op.bitwise a b) = some c) : c.natAbs ≤ 32768 := by
    obtain rfl := Option.some.inj h
    obtain ⟨hlo, hhi⟩ := Interval.bitwise_mem_word op a b
    simp only [Interval.word] at hlo hhi
    omega
  cases op
  case intDiv =>
    obtain ⟨-, h⟩ := Option.ite_none_left_eq_some.1 h
    rw [← Option.some.inj h, Int.natAbs_tdiv]
    exact (Nat.div_le_self ..).trans ha
  case mod =>
    obtain ⟨-, h⟩ := Option.ite_none_left_eq_some.1 h
    rw [← Option.some.inj h, Int.natAbs_tmod]
    exact (Nat.mod_le ..).trans ha
  all_goals exact bits h

theorem isNumeric_of_applyNumbers? (h : op.applyNumbers? x y = some v) : v.IsNumeric := by
  cases hop : op.takesWords with
  | true =>
    rw [applyNumbers?_words hop] at h
    simp only [Option.bind_eq_some_iff] at h
    obtain ⟨a, ha, b, -, c, hc, h⟩ := h
    have hsize := natAbs_of_applyWords? (natAbs_of_word? ha) hc
    exact Option.some.inj h ▸ Value.isNumeric_number (isNumber_ofInt (by omega))
  | false =>
    cases op <;> first | exact absurd hop (by decide) | skip
    case div => exact Value.isNumeric_ofFinite? (Option.ite_none_left_eq_some.1 h).2
    case add | sub | mul | pow => exact Value.isNumeric_ofFinite? h
    all_goals exact Option.some.inj h ▸ Value.isNumeric_truth _

theorem isNumeric_of_result? (h : op.result? v w = some u) : u.IsNumeric := by
  cases v with
  | number x =>
    cases w with
    | number y => exact isNumeric_of_applyNumbers? h
    | string t => cases h
  | string s =>
    cases w with
    | number y => cases h
    | string t =>
      cases op <;> first
        | cases h; done
        | exact Option.some.inj h ▸ Value.isNumeric_string _
        | exact Option.some.inj h ▸ Value.isNumeric_truth _

end BinaryOp

namespace Intrinsic

variable {f : Intrinsic} {v : Value Float}

theorem isNumeric_of_applyNumber? (h : f.applyNumber? x = some v) : v.IsNumeric := by
  unfold applyNumber? at h
  split at h
  case h_4 =>
    obtain ⟨w, hw, rfl⟩ := Option.map_eq_some_iff.1 h
    have hsize := natAbs_of_word? hw
    exact Value.isNumeric_number (isNumber_ofInt (by omega))
  case h_5 =>
    refine Option.some.inj h ▸ Value.isNumeric_number (isNumber_ofInt ?_)
    split
    · decide
    · split <;> decide
  case h_13 =>
    obtain ⟨code, -, rfl⟩ := Option.map_eq_some_iff.1 h
    exact Value.isNumeric_string _
  case h_14 => cases h
  case h_6 | h_7 => exact Value.isNumeric_ofFinite? (Option.ite_none_right_eq_some.1 h).2
  all_goals exact Value.isNumeric_ofFinite? h

theorem isNumeric_of_result? {args : List (Value Float)} (h : f.result? args = some v) :
    v.IsNumeric := by
  unfold result? at h
  split at h
  next => exact isNumeric_of_applyNumber? h
  next s =>
    split at h
    · exact Value.isNumeric_ofFinite? h
    · obtain ⟨c, -, rfl⟩ := Option.map_eq_some_iff.1 h
      have hcode : c.toNat < 2 ^ 32 := c.val.toNat_lt
      exact Value.isNumeric_number (isNumber_ofInt (by omega))
    · cases h
  next s n =>
    split at h
    · obtain ⟨_, -, rfl⟩ := Option.map_eq_some_iff.1 h
      exact Value.isNumeric_string _
    · obtain ⟨_, -, rfl⟩ := Option.map_eq_some_iff.1 h
      exact Value.isNumeric_string _
    · cases h
  next => cases h

end Intrinsic

/-! ## Values of expressions -/

namespace Expr

/-- The literals of the expression are numbers. -/
def HasNumbers (e : Expr Float) : Prop :=
  ∀ part ∈ e.subterms, ∀ x, part.number? = some x → IsNumber x

/-- Where the literals of an expression and the values of its scalars are numbers, so is what it is
evaluated to. -/
theorem isNumeric_of_evaluate? {value : String → Option Float}
    (hvalue : ∀ key x, value key = some x → IsNumber x) :
    ∀ {e : Expr Float} {v : Value Float}, e.HasNumbers → e.evaluate? value = some v → v.IsNumeric
  | .number c written, v, he, h => by
    obtain rfl := Option.some.inj h
    exact Value.isNumeric_number (he _ List.mem_cons_self c rfl)
  | .string s, v, _, h => Option.some.inj h ▸ Value.isNumeric_string s
  | .scalar name, v, _, h => by
    obtain ⟨x, hx, rfl⟩ := Option.map_eq_some_iff.1 h
    exact Value.isNumeric_number (hvalue _ _ hx)
  | .unary op operand, v, he, h => by
    obtain ⟨n, m, hn, hm, rfl⟩ := evaluate?_unary_eq_some_iff.1 h
    have hoperand := isNumeric_of_evaluate? hvalue
      (fun part hpart => he part (List.mem_cons_of_mem _ hpart)) hn
    exact Value.isNumeric_number (UnaryOp.isNumber_of_result? (hoperand n rfl) hm)
  | .binary op left right, v, _, h => by
    obtain ⟨x, y, -, -, hv⟩ := evaluate?_binary_eq_some_iff.1 h
    exact BinaryOp.isNumeric_of_result? hv
  | .intrinsic f args, v, _, h => by
    obtain ⟨values, -, hv⟩ := Option.bind_eq_some_iff.1 h
    exact Intrinsic.isNumeric_of_result? hv
  | .element .., v, _, h => by cases h
  | .call .., v, _, h => by cases h

/-! ## Readings by numbers -/

/-- A reading in which constants have no value but their own, and numbers are numbers. -/
structure NumericReading (R : Expr Float → Value Float → Prop) : Prop extends Reading R where
  eq_constant {e : Expr Float} {c : Float} {v : Value Float} : e.constantNumber? = some c →
    R e v → v = .number c
  isNumber {e : Expr Float} {n : Float} : R e (.number n) → IsNumber n

theorem numericReading_denotes (memory : Memory Float) : NumericReading (Denotes memory) where
  toReading := reading_denotes memory
  eq_constant hc h :=
    eq_of_denotes (fun _ _ h => by cases h) (evaluate?_of_constantNumber? hc fun _ => none) h
  isNumber h := same_self_iff.1 h.legal

theorem numericReading_evaluate? {value : String → Option Float}
    (hvalue : ∀ key x, value key = some x → IsNumber x) :
    NumericReading fun e v => e.evaluate? value = some v ∧ e.HasNumbers where
  toReading := by
    have hreading := reading_evaluate? id value
    simp only [map_id] at hreading
    exact hreading.within _
  eq_constant hc h := Option.some.inj (h.1.symm.trans (evaluate?_of_constantNumber? hc value))
  isNumber h := isNumeric_of_evaluate? hvalue h.2 h.1 _ rfl

end Expr
end LineBasic
