import LineBasic.Proofs.Expr.Denotation

/-!
# Readings of expressions

A reading relates expressions to the values that they may have. Operators and functions have in it
the values that they give for the values of their operands (`Expr.Reading`). What an expression
denotes in a memory is a reading (`Expr.reading_denotes`), and so is the value that it is evaluated
to when its literals are taken as numbers of some arithmetic (`Expr.reading_evaluate?`). What is
shown of a reading holds for both.
-/

namespace LineBasic

variable {ν : Type}

namespace Expr

mutual

/-- Nothing is changed where numbers are taken as themselves. -/
theorem map_id : (e : Expr ν) → e.map id = e
  | .number .. | .string _ | .scalar _ => rfl
  | .element _ subscripts => congrArg _ (mapList_id subscripts)
  | .unary _ operand => congrArg _ operand.map_id
  | .binary _ left right => congrArg₂ _ left.map_id right.map_id
  | .intrinsic _ args => congrArg _ (mapList_id args)
  | .call _ args => congrArg _ (mapList_id args)

theorem mapList_id : (es : List (Expr ν)) → mapList id es = es
  | [] => rfl
  | e :: rest => congrArg₂ _ e.map_id (mapList_id rest)

end

end Expr

variable [Arithmetic ν]

/-- A function that has a value for its arguments gives this value. -/
theorem Intrinsic.gives_of_result? {f : Intrinsic} {args : List (Value ν)} {v : Value ν}
    (h : f.result? args = some v) : f.Gives args v := by
  cases hf : f.isComputed with
  | true => rwa [Gives, if_pos hf]
  | false => exact absurd h (by simp [result?_eq_none hf])

namespace Expr

/-- Operators and functions have the values that they give for the values of their operands. -/
structure Reading (R : Expr Float → Value ν → Prop) : Prop where
  unary {op : UnaryOp} {operand : Expr Float} {v : Value ν} : R (.unary op operand) v →
    ∃ n m, R operand (.number n) ∧ op.result? n = some m ∧ v = .number m
  binary {op : BinaryOp} {left right : Expr Float} {v : Value ν} : R (.binary op left right) v →
    ∃ x y, R left x ∧ R right y ∧ op.result? x y = some v
  intrinsic {f : Intrinsic} {args : List (Expr Float)} {v : Value ν} : R (.intrinsic f args) v →
    ∃ values, List.Forall₂ R args values ∧ f.Gives values v

/-- A reading of those expressions of which all parts have a property. -/
theorem Reading.within {R : Expr Float → Value ν → Prop} (hR : Reading R)
    (P : Expr Float → Prop) : Reading fun e v => R e v ∧ ∀ part ∈ e.subterms, P part where
  unary := by
    rintro op operand v ⟨h, hparts⟩
    obtain ⟨n, m, hn, hm, hv⟩ := hR.unary h
    exact ⟨n, m, ⟨hn, fun part hpart => hparts part (List.mem_cons_of_mem _ hpart)⟩, hm, hv⟩
  binary := by
    rintro op left right v ⟨h, hparts⟩
    obtain ⟨x, y, hx, hy, hv⟩ := hR.binary h
    refine ⟨x, y, ⟨hx, fun part hpart => ?_⟩, ⟨hy, fun part hpart => ?_⟩, hv⟩
    · exact hparts part (List.mem_cons_of_mem _ (List.mem_append_left _ hpart))
    · exact hparts part (List.mem_cons_of_mem _ (List.mem_append_right _ hpart))
  intrinsic := by
    rintro f args v ⟨h, hparts⟩
    obtain ⟨values, hvalues, hv⟩ := hR.intrinsic h
    refine ⟨values, ?_, hv⟩
    replace hparts : ∀ part ∈ subtermsOfList args, P part :=
      fun part hpart => hparts part (List.mem_cons_of_mem _ hpart)
    clear h hv
    induction hvalues with
    | nil => exact .nil
    | cons hfirst _ ih =>
      refine .cons ⟨hfirst, fun part hpart => ?_⟩ (ih fun part hpart => ?_)
      · exact hparts part (List.mem_append_left _ hpart)
      · exact hparts part (List.mem_append_right _ hpart)

/-! ## What expressions denote -/

theorem DenoteAll.forall₂ [LiteralValues ν] {memory : Memory ν} :
    ∀ {es : List (Expr Float)} {vs : List (Value ν)}, DenoteAll memory es vs →
      List.Forall₂ (Denotes memory) es vs
  | [], vs, h => by
    obtain rfl : vs = [] := h
    exact .nil
  | e :: rest, vs, h => by
    obtain ⟨v, others, hv, hothers, rfl⟩ := h
    exact .cons hv (DenoteAll.forall₂ hothers)

theorem reading_denotes [LiteralValues ν] (memory : Memory ν) : Reading (Denotes memory) where
  unary := by
    rintro op operand v ⟨n, m, hn, hm, hv, -⟩
    exact ⟨n, m, hn, hm, hv⟩
  binary := by
    rintro op left right v ⟨x, y, hx, hy, hv, -⟩
    exact ⟨x, y, hx, hy, hv⟩
  intrinsic := by
    rintro f args v ⟨values, hvalues, hv, -⟩
    exact ⟨values, DenoteAll.forall₂ hvalues, hv⟩

/-! ## What expressions are evaluated to -/

theorem forall₂_of_evaluateList? {read : Float → ν} {value : String → Option ν} :
    ∀ {es : List (Expr Float)} {vs : List (Value ν)},
      evaluateList? value (mapList read es) = some vs →
        List.Forall₂ (fun e v => (e.map read).evaluate? value = some v) es vs
  | [], vs, h => by
    obtain rfl : [] = vs := Option.some.inj h
    exact .nil
  | e :: rest, vs, h => by
    simp only [mapList, evaluateList?, bind, Option.bind_eq_some_iff] at h
    obtain ⟨v, hv, others, hothers, h⟩ := h
    obtain rfl : v :: others = vs := Option.some.inj h
    exact .cons hv (forall₂_of_evaluateList? hothers)

theorem reading_evaluate? (read : Float → ν) (value : String → Option ν) :
    Reading fun e v => (e.map read).evaluate? value = some v where
  unary h := evaluate?_unary_eq_some_iff.1 h
  binary h := evaluate?_binary_eq_some_iff.1 h
  intrinsic h := by
    obtain ⟨values, hvalues, hv⟩ := Option.bind_eq_some_iff.1 h
    exact ⟨values, forall₂_of_evaluateList? hvalues, Intrinsic.gives_of_result? hv⟩

end Expr
end LineBasic
