import LineBasic.Proofs.Grammar.Spelling
import LineBasic.Proofs.Range.Condition

/-!
# Conditions that are evaluated

Where a condition is evaluated to a number that is not zero, the values of its scalars are in the
ranges that `constraints` lists for a condition that holds, and where it is evaluated to zero they
are in those for a condition that fails (`constraints_hold`). Its literals have to be numbers, and
all that is read from a text are (`Grammar.hasNumbers_of_expression`).
-/

namespace LineBasic

open Arithmetic Number

/-! ## The literals that are read -/

theorem Decimal.isNumber_toFloat (d : Decimal) : IsNumber d.toFloat := by
  obtain ⟨exponent, mantissa, hnumber, hfields⟩ := d.exists_fields_toFloat
  intro hx
  have hparts : parts d.toFloat = .notANumber := hx
  rw [hparts] at hfields
  cases hfields with
  | notANumber hones hne => exact hne (hnumber hones)

namespace Expr

theorem hasNumbers_of_children {e : Expr Float} (hself : ∀ x, e.number? = some x → IsNumber x)
    (h : ∀ child ∈ e.children, child.HasNumbers) : e.HasNumbers := by
  intro part hpart
  rw [subterms_eq, List.mem_cons, mem_subtermsOfList] at hpart
  obtain rfl | ⟨child, hchild, hpart⟩ := hpart
  · exact hself
  · exact h child hchild part hpart

end Expr

namespace Grammar

theorem isNumber_of_isNumberText {w : List Char} {x : Float} (h : IsNumberText w x) :
    IsNumber x := by
  cases h with
  | hexadecimal => exact Decimal.isNumber_toFloat ⟨_, 0⟩
  | decimal => exact Decimal.isNumber_toFloat _

theorem exprClosed_hasNumbers : ExprClosed Expr.HasNumbers where
  number _ _ _ h := Expr.hasNumbers_of_children
    (fun _ heq => Option.some.inj heq ▸ isNumber_of_isNumberText (isNumberText_of_number h)) nofun
  string _ _ _ _ := Expr.hasNumbers_of_children nofun nofun
  named _ _ _ _ _ := ⟨Expr.hasNumbers_of_children nofun nofun,
    fun _ _ hsubscripts => Expr.hasNumbers_of_children nofun hsubscripts⟩
  call _ _ _ _ _ hargs := Expr.hasNumbers_of_children nofun hargs
  intrinsic _ _ hargs := Expr.hasNumbers_of_children nofun hargs
  unary _ _ h := Expr.hasNumbers_of_children nofun (List.forall_mem_singleton.2 h)
  binary _ _ _ hleft hright := Expr.hasNumbers_of_children nofun
    (List.forall_mem_cons.2 ⟨hleft, List.forall_mem_singleton.2 hright⟩)

theorem hasNumbers_of_expression {s rest : List Char} {e : Expr Float}
    (h : expression s = .accepted e rest) : e.HasNumbers :=
  exprClosed_hasNumbers.ensures_expression h

end Grammar

/-! ## Conditions -/

/-- What a condition says of scalars where it holds, or where it fails, is so of their values. -/
theorem constraints_hold {condition : Expr Float} {value : String → Option Float} {v : Float}
    (hcondition : condition.HasNumbers) (hvalue : ∀ key x, value key = some x → IsNumber x)
    (hv : condition.evaluate? value = some (.number v)) :
    (isZero v = false → ∀ key range, (key, range) ∈ constraints true condition →
      ∃ x, value key = some x ∧ range.contains x = true) ∧
    (isZero v = true → ∀ key range, (key, range) ∈ constraints false condition →
      ∃ x, value key = some x ∧ range.contains x = true) := by
  have arm (holds : Bool) (hzero : isZero v = !holds) (key : String) (range : ValueRange Float)
      (hrange : (key, range) ∈ constraints holds condition) :
      ∃ x, value key = some x ∧ range.contains x = true := by
    obtain ⟨name, x, rfl, ⟨hx, -⟩, hcontains⟩ := (Expr.numericReading_evaluate? hvalue).mem_range
      ⟨hv, hcondition⟩ (decides_of_isZero hzero) hrange
    obtain ⟨_, hx, ⟨rfl⟩⟩ := Option.map_eq_some_iff.1 hx
    exact ⟨x, hx, hcontains⟩
  exact ⟨arm true, arm false⟩

/-- `(X >= 3 AND 5) AND NOT (7 < X OR Y)`, in which `AND` and `NOT` have operands that are no truth
values. -/
def mixedWords : Expr Float :=
  .binary .and (.binary .and (.binary .ge (.scalar ⟨"X"⟩) (.number 3 "3")) (.number 5 "5"))
    (.unary .not (.binary .or (.binary .lt (.number 7 "7") (.scalar ⟨"X"⟩)) (.scalar ⟨"Y"⟩)))

/-- With 6 for `X` and 2 for `Y` the condition holds, and finds `X` from 3 to 7. -/
theorem constraints_hold_mixedWords :
    (constraints true mixedWords).map Prod.fst = ["X", "X"] ∧
    ∃ v, mixedWords.evaluate? (fun key => some (if key = "X" then 6 else 2)) = some (.number v) ∧
      isZero v = false ∧ ∀ key range, (key, range) ∈ constraints true mixedWords →
        ∃ x, some (if key = "X" then 6 else 2) = some x ∧ range.contains x = true := by
  have hevaluated : ((mixedWords.evaluate? fun key => some (if key = "X" then 6 else 2)).bind
      Value.number?).any (fun v => !isZero v) = true := by decide +kernel
  obtain ⟨v, hv, hzero⟩ := (Option.any_eq_true ..).1 hevaluated
  obtain ⟨_, hv, hnumber⟩ := Option.bind_eq_some_iff.1 hv
  obtain rfl := Value.number?_eq_some_iff.1 hnumber
  have hzero : isZero v = false := by simpa using hzero
  have hnumbers : mixedWords.HasNumbers := by
    have hall : mixedWords.subterms.all (fun part => part.number?.all fun x => same x x) = true :=
      by decide +kernel
    intro part hpart x hx
    have hsame := List.all_eq_true.1 hall part hpart
    rw [hx] at hsame
    exact same_self_iff.1 hsame
  have hvalue : ∀ key x, some (if key = "X" then (6 : Float) else 2) = some x → IsNumber x := by
    rintro key _ ⟨rfl⟩
    split <;> exact same_self_iff.1 (by decide +kernel)
  exact ⟨by decide +kernel, v, hv, hzero, (constraints_hold hnumbers hvalue hv).1 hzero⟩

end LineBasic
