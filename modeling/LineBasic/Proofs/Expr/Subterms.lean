import LineBasic.Expr.Basic

/-!
# Subexpressions

An expression is a subexpression of itself, and subexpressions of subexpressions are subexpressions.
A property that every expression takes over from its direct operands holds of all expressions
(`Expr.of_children`).
-/

namespace LineBasic.Expr

variable {ν : Type}

theorem self_mem_subterms (e : Expr ν) : e ∈ e.subterms := by
  cases e <;> simp [subterms]

theorem subterms_eq (e : Expr ν) : e.subterms = e :: subtermsOfList e.children := by
  cases e <;> simp [subterms, subtermsOfList, children]

theorem mem_subtermsOfList {d : Expr ν} {es : List (Expr ν)} :
    d ∈ subtermsOfList es ↔ ∃ e ∈ es, d ∈ e.subterms := by
  rw [subtermsOfList_eq_flatMap, List.mem_flatMap]

/-- A property of all subexpressions, by the direct operands. -/
theorem forall_mem_subterms_iff {p : Expr ν → Prop} {e : Expr ν} :
    (∀ t ∈ e.subterms, p t) ↔ p e ∧ ∀ c ∈ e.children, ∀ t ∈ c.subterms, p t := by
  rw [subterms_eq, List.forall_mem_cons]
  simp only [mem_subtermsOfList]
  refine and_congr_right fun _ => ⟨fun h c hc t ht => h t ⟨c, hc, ht⟩, ?_⟩
  rintro h t ⟨c, hc, ht⟩
  exact h c hc t ht

mutual

theorem mem_subterms_trans {c d : Expr ν} (hc : c ∈ d.subterms) :
    ∀ {e : Expr ν}, d ∈ e.subterms → c ∈ e.subterms
  | .number .., hd | .string _, hd | .scalar _, hd => by
    obtain rfl := List.mem_singleton.1 hd
    exact hc
  | .element _ subscripts, hd => by
    rcases List.mem_cons.1 hd with rfl | hd
    · exact hc
    · exact List.mem_cons_of_mem _ (mem_subtermsOfList_trans hc hd)
  | .unary _ operand, hd => by
    rcases List.mem_cons.1 hd with rfl | hd
    · exact hc
    · exact List.mem_cons_of_mem _ (mem_subterms_trans hc hd)
  | .binary _ left right, hd => by
    rcases List.mem_cons.1 hd with rfl | hd
    · exact hc
    · refine List.mem_cons_of_mem _ (List.mem_append.2 ?_)
      exact (List.mem_append.1 hd).imp (mem_subterms_trans hc) (mem_subterms_trans hc)
  | .intrinsic _ args, hd | .call _ args, hd => by
    rcases List.mem_cons.1 hd with rfl | hd
    · exact hc
    · exact List.mem_cons_of_mem _ (mem_subtermsOfList_trans hc hd)

theorem mem_subtermsOfList_trans {c d : Expr ν} (hc : c ∈ d.subterms) :
    ∀ {es : List (Expr ν)}, d ∈ subtermsOfList es → c ∈ subtermsOfList es
  | e :: rest, hd => by
    rw [subtermsOfList, List.mem_append] at hd ⊢
    exact hd.imp (mem_subterms_trans hc) (mem_subtermsOfList_trans hc)

end

theorem sizeOf_lt_of_mem_children {c e : Expr ν} (h : c ∈ e.children) : sizeOf c < sizeOf e := by
  cases e with
  | number | string | scalar => exact absurd h List.not_mem_nil
  | unary op operand =>
    obtain rfl := List.mem_singleton.1 h
    simp only [unary.sizeOf_spec]
    omega
  | binary op left right =>
    simp only [children, List.mem_cons, List.not_mem_nil, or_false] at h
    rcases h with rfl | rfl <;> simp only [binary.sizeOf_spec] <;> omega
  | element | intrinsic | call =>
    have hlt := List.sizeOf_lt_of_mem h
    simp only [children] at hlt
    simp only [element.sizeOf_spec, intrinsic.sizeOf_spec, call.sizeOf_spec]
    omega

/-- Induction on the direct operands of an expression. -/
theorem of_children {p : Expr ν → Prop} (step : ∀ e : Expr ν, (∀ c ∈ e.children, p c) → p e)
    (e : Expr ν) : p e :=
  step e fun c hc =>
    have := sizeOf_lt_of_mem_children hc
    of_children step c
termination_by sizeOf e

end LineBasic.Expr
