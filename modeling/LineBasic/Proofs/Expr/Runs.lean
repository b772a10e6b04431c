import Mathlib.Data.List.Forall2
import LineBasic.Expr.Reduction

/-!
# Runs of unary operators

A unary operator is applied to its reduced operand if that operand is written without another one of
its kind in front (`Expr.reduce_unary`). Otherwise it belongs to a run, of which pairs cancel
(`Expr.exists_pairReport`). What each step of the reduction ensures, whether or not such a pair
stands in front, is ensured by the whole of it (`Expr.StepsEnsure.reduce`).
-/

namespace LineBasic.Expr

variable {ν : Type} [Arithmetic ν] {op : UnaryOp} {x : Expr ν}

/-- A unary operator in front of an operand that is already reduced. -/
def reduceUnary (boolean : Bool) (op : UnaryOp) (operand : Expr ν) : Expr ν × List Reduction :=
  match op with
  | .neg => negate operand
  | .not => complement boolean operand

theorem exists_operator_extend (boolean : Bool) (op : UnaryOp) (run : Run ν) :
    ∃ n, (run.extend boolean op).operator = some (op, n + 1) := by
  rw [Run.extend]
  split
  next inner n hoperator =>
    split
    next hinner =>
      subst hinner
      exact ⟨n, rfl⟩
    next => exact ⟨0, rfl⟩
  next => exact ⟨0, rfl⟩

theorem exists_operator_run (boolean : Bool) (op : UnaryOp) (x : Expr ν) :
    ∃ n, ((Expr.unary op x).run boolean).operator = some (op, n + 1) := by
  rw [run]
  exact exists_operator_extend boolean op (x.run boolean)

/-- In front of anything else an operator starts a run of its own. -/
theorem extend_run_of_ne (boolean : Bool) (h : ∀ y, x ≠ .unary op y) :
    (x.run boolean).extend boolean op =
      ⟨some (op, 1), (x.reduce boolean).1, (x.reduce boolean).2⟩ := by
  rw [Run.extend]
  split
  next inner n hoperator =>
    cases x with
    | unary op' operand =>
      obtain ⟨m, hm⟩ := exists_operator_run boolean op' operand
      rw [hm] at hoperator
      obtain ⟨rfl, -⟩ := Prod.mk.inj (Option.some.inj hoperator)
      rw [if_neg fun hop => h operand (congrArg (Expr.unary · operand) hop)]
      rfl
    | _ =>
      rw [run] at hoperator
      cases hoperator
  next => rfl

theorem reduce_unary (boolean : Bool) (h : ∀ y, x ≠ .unary op y) :
    (Expr.unary op x).reduce boolean =
      ((reduceUnary boolean op (x.reduce boolean).1).1,
        (x.reduce boolean).2 ++ (reduceUnary boolean op (x.reduce boolean).1).2) := by
  rw [reduce, run, extend_run_of_ne boolean h]
  cases op <;> simp [Run.finish, pairReports, reduceUnary]

/-- Two equal operators in a row are reported. -/
theorem exists_pairReport (boolean : Bool) (op : UnaryOp) (x : Expr ν) :
    ∃ report ∈ ((Expr.unary op (.unary op x)).reduce boolean).2,
      report.identity = .doubleNegation ∨ report.identity = .doubleNegate := by
  obtain ⟨n, hn⟩ := exists_operator_run boolean op x
  have hrun : ((Expr.unary op (.unary op x)).run boolean).operator = some (op, n + 2) := by
    rw [run, Run.extend, hn]
    simp
  obtain ⟨report, hreport, hidentity⟩ : ∃ report ∈ pairReports op (n + 2)
      ((Expr.unary op (.unary op x)).run boolean).operand,
      report.identity = .doubleNegation ∨ report.identity = .doubleNegate := by
    refine ⟨_, List.mem_map.2 ⟨0, List.mem_range.2 (by omega), rfl⟩, ?_⟩
    cases op
    · exact .inr rfl
    · exact .inl rfl
  refine ⟨report, ?_, hidentity⟩
  rw [reduce, Run.finish, hrun]
  dsimp only
  split
  next => exact List.mem_append_right _ hreport
  next => exact List.mem_append_left _ (List.mem_append_right _ hreport)

/-! ## Induction on the steps -/

omit [Arithmetic ν] in
/-- What related expressions have in common holds of all in a list. -/
theorem forall_mem_of_forall₂ {P Q : Expr ν → Prop} {es reduced : List (Expr ν)}
    (h : List.Forall₂ (fun e r => P e → Q r) es reduced) (hes : ∀ e ∈ es, P e) :
    ∀ r ∈ reduced, Q r := by
  induction h with
  | nil => exact nofun
  | cons h _ ih =>
    obtain ⟨he, hrest⟩ := List.forall_mem_cons.1 hes
    exact List.forall_mem_cons.2 ⟨h he, ih hrest⟩

/-- Every step of the reduction ensures a relation of an expression to its reduced form, which does
not depend on the unary operators in front of the expression, as those may cancel. -/
structure StepsEnsure (boolean : Bool) (R : Expr ν → Expr ν → Prop) : Prop where
  trivial {e : Expr ν} : e.isTrivial → R e e
  element {name : Name} {subscripts reduced : List (Expr ν)} : List.Forall₂ R subscripts reduced →
    R (.element name subscripts) (.element name reduced)
  call {name : Name} {args reduced : List (Expr ν)} : List.Forall₂ R args reduced →
    R (.call name args) (.call name reduced)
  intrinsic {f : Intrinsic} {args reduced : List (Expr ν)} : List.Forall₂ R args reduced →
    R (.intrinsic f args)
      ((Expr.intrinsic f reduced).constant?.elim (.intrinsic f reduced) Value.toExpr)
  cancel {op : UnaryOp} {e r : Expr ν} : R e r → R (.unary op e) r
  unary {op : UnaryOp} {e r : Expr ν} : R e r → R e (reduceUnary boolean op r).1
  binary {op : BinaryOp} {left right l r : Expr ν} : R left l → R right r →
    R (.binary op left right) (reduceBinary boolean op l r).1

namespace StepsEnsure

variable {boolean : Bool} {R : Expr ν → Expr ν → Prop} {e : Expr ν} {started : Run ν}

theorem finish (hR : StepsEnsure boolean R) (h : R e started.operand) :
    R e (started.finish boolean).1 := by
  rw [Run.finish]
  split
  next => exact h
  next op n _ =>
    dsimp only
    split
    next => exact h
    next =>
      have hunary : R e (reduceUnary boolean op started.operand).1 := hR.unary h
      cases op <;> exact hunary

theorem extend (hR : StepsEnsure boolean R) (op : UnaryOp) (h : R e started.operand) :
    R e (started.extend boolean op).operand := by
  rw [Run.extend]
  split
  next =>
    split
    next => exact h
    next => exact hR.finish h
  next => exact hR.finish h

mutual

theorem run (hR : StepsEnsure boolean R) : ∀ e : Expr ν, R e (e.run boolean).operand
  | .number .. | .string _ | .scalar _ => by
    rw [Expr.run]
    exact hR.trivial rfl
  | .unary op operand => by
    rw [Expr.run]
    exact hR.cancel (hR.extend op (hR.run operand))
  | .binary op left right => by
    rw [Expr.run]
    exact hR.binary (hR.finish (hR.run left)) (hR.finish (hR.run right))
  | .element name subscripts => by
    rw [Expr.run]
    exact hR.element (hR.reduceList subscripts)
  | .call name args => by
    rw [Expr.run]
    exact hR.call (hR.reduceList args)
  | .intrinsic f args => by
    rw [Expr.run]
    exact hR.intrinsic (hR.reduceList args)

theorem reduceList (hR : StepsEnsure boolean R) :
    ∀ es : List (Expr ν), List.Forall₂ R es (Expr.reduceList boolean es).1
  | [] => by
    rw [Expr.reduceList]
    exact .nil
  | e :: rest => by
    rw [Expr.reduceList]
    exact .cons (hR.finish (hR.run e)) (hR.reduceList rest)

end

/-- The reduced form of an expression is related to it as its steps ensure. -/
theorem reduce (hR : StepsEnsure boolean R) (e : Expr ν) : R e (e.reduce boolean).1 :=
  hR.finish (hR.run e)

end StepsEnsure
end LineBasic.Expr
