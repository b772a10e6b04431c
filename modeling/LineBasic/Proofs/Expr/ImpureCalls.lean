import LineBasic.Proofs.Expr.Reduction
import LineBasic.Proofs.Expr.Runs
import LineBasic.Proofs.Expr.Subterms

/-!
# Reduction keeps impure calls

A call is impure if it may give another result the next time: it must be neither dropped nor
repeated, and two of them must not change places. The impure calls of an expression, read from left
to right (`Expr.impureCalls`), are those of the reduced expression (`Expr.impureCalls_reduce`). What
the rules of binary operators give is listed once (`Expr.Rewritten`): an operand that is dropped or
repeated is pure or has a value of its own, and no impure call is part of what has a value
(`Expr.impureCalls_of_evaluate?`).
-/

namespace LineBasic

/-- What an impure call calls. -/
inductive Callee where
  | builtin (f : Intrinsic)
  /-- A function that the program defines. -/
  | defined (name : Name)
  deriving DecidableEq, Repr

/-- The functions that may give another result the next time have no value of their own. -/
theorem Intrinsic.result?_of_isImpure {ν : Type} [Arithmetic ν] {f : Intrinsic} (h : f.isImpure)
    (vs : List (Value ν)) : f.result? vs = none := by
  rw [Intrinsic.result?.eq_def]
  split <;> cases f <;> first | rfl | cases h

namespace Expr

section

variable {ν : Type} {e left right : Expr ν}

/-- What the expression itself calls, if it is an impure call. -/
def impureCallee? : Expr ν → Option Callee
  | .call name _ => some (.defined name)
  | .intrinsic f _ => if f.isImpure then some (.builtin f) else none
  | _ => none

/-- What the impure calls in the expression call, from left to right. -/
def impureCalls (e : Expr ν) : List Callee := e.subterms.filterMap impureCallee?

theorem isSome_impureCallee? (e : Expr ν) : e.impureCallee?.isSome = e.isImpureCall := by
  cases e with
  | intrinsic f args =>
    rw [impureCallee?, isImpureCall]
    cases f.isImpure <;> rfl
  | _ => rfl

theorem impureCalls_subtermsOfList (es : List (Expr ν)) :
    (subtermsOfList es).filterMap impureCallee? = es.flatMap impureCalls := by
  rw [subtermsOfList_eq_flatMap, List.filterMap_flatMap]
  rfl

@[simp] theorem impureCalls_number (value : ν) (text : String) :
    (Expr.number value text).impureCalls = [] := rfl

@[simp] theorem impureCalls_string (body : String) : (.string body : Expr ν).impureCalls = [] := rfl

@[simp] theorem impureCalls_scalar (name : Name) : (.scalar name : Expr ν).impureCalls = [] := rfl

@[simp] theorem impureCalls_element (name : Name) (subscripts : List (Expr ν)) :
    (Expr.element name subscripts).impureCalls = subscripts.flatMap impureCalls := by
  rw [← impureCalls_subtermsOfList]
  rfl

@[simp] theorem impureCalls_unary (op : UnaryOp) (e : Expr ν) :
    (Expr.unary op e).impureCalls = e.impureCalls := rfl

@[simp] theorem impureCalls_binary (op : BinaryOp) (left right : Expr ν) :
    (Expr.binary op left right).impureCalls = left.impureCalls ++ right.impureCalls := by
  rw [impureCalls, subterms, List.filterMap_cons, List.filterMap_append]
  rfl

@[simp] theorem impureCalls_intrinsic (f : Intrinsic) (args : List (Expr ν)) :
    (Expr.intrinsic f args).impureCalls =
      (if f.isImpure then [.builtin f] else []) ++ args.flatMap impureCalls := by
  rw [← impureCalls_subtermsOfList, impureCalls, subterms, List.filterMap_cons, impureCallee?]
  cases f.isImpure <;> rfl

@[simp] theorem impureCalls_call (name : Name) (args : List (Expr ν)) :
    (Expr.call name args).impureCalls = .defined name :: args.flatMap impureCalls := by
  rw [← impureCalls_subtermsOfList]
  rfl

theorem isPure_iff : e.isPure ↔ e.impureCalls = [] := by
  rw [isPure, hasSideEffects, Bool.not_eq_true', List.any_eq_false, impureCalls,
    List.filterMap_eq_nil_iff]
  refine forall₂_congr fun d _ => ?_
  rw [← isSome_impureCallee?, Option.not_isSome_iff_eq_none]

theorem impureCalls_product (h : e.impureCalls = []) (n : Nat) :
    (e.product n).impureCalls = [] := by
  rw [product]
  refine List.foldlRecOn (motive := fun acc : Expr ν => acc.impureCalls = []) _ _ h ?_
  intro acc hacc _ _
  rw [impureCalls_binary, hacc, h]
  rfl

end

variable {ν : Type} [Arithmetic ν] {boolean : Bool} {e left right result : Expr ν}

@[simp] theorem impureCalls_ofInt (n : Int) : (ofInt n : Expr ν).impureCalls = [] := rfl

@[simp] theorem impureCalls_toExpr (v : Value ν) : v.toExpr.impureCalls = [] := by
  cases v <;> rfl

/-! ## Expressions with a value -/

mutual

/-- No impure call is part of what has a value. -/
theorem impureCalls_of_evaluate? {value : String → Option ν} :
    ∀ {e : Expr ν} {v : Value ν}, e.evaluate? value = some v → e.impureCalls = []
  | .number .., _, _ | .string _, _, _ | .scalar _, _, _ => rfl
  | .unary op operand, v, h => by
    obtain ⟨w, hw, -⟩ := Option.bind_eq_some_iff.1 h
    rw [impureCalls_unary]
    exact impureCalls_of_evaluate? hw
  | .binary op left right, v, h => by
    obtain ⟨a, ha, h⟩ := Option.bind_eq_some_iff.1 h
    obtain ⟨b, hb, -⟩ := Option.bind_eq_some_iff.1 h
    rw [impureCalls_binary, impureCalls_of_evaluate? ha, impureCalls_of_evaluate? hb]
    rfl
  | .intrinsic f args, v, h => by
    obtain ⟨vs, hvs, hv⟩ := Option.bind_eq_some_iff.1 h
    have hf : ¬ f.isImpure := fun hf => by
      rw [Intrinsic.result?_of_isImpure hf] at hv
      cases hv
    rw [impureCalls_intrinsic, if_neg hf, impureCalls_of_evaluateList? hvs]
    rfl

theorem impureCalls_of_evaluateList? {value : String → Option ν} :
    ∀ {es : List (Expr ν)} {vs : List (Value ν)}, evaluateList? value es = some vs →
      es.flatMap impureCalls = []
  | [], _, _ => rfl
  | e :: rest, vs, h => by
    obtain ⟨v, hv, h⟩ := Option.bind_eq_some_iff.1 h
    obtain ⟨others, hothers, -⟩ := Option.bind_eq_some_iff.1 h
    rw [List.flatMap_cons, impureCalls_of_evaluate? hv, impureCalls_of_evaluateList? hothers]
    rfl

end

theorem impureCalls_of_constantNumber? {n : ν} (h : e.constantNumber? = some n) :
    e.impureCalls = [] := by
  obtain ⟨v, hv, -⟩ := Option.bind_eq_some_iff.1 h
  exact impureCalls_of_evaluate? hv

theorem impureCalls_of_isNumber {n : Int} (h : isNumber e.constantNumber? n) :
    e.impureCalls = [] := by
  obtain ⟨c, hc, -⟩ := (Option.any_eq_true _ _).1 h
  exact impureCalls_of_constantNumber? hc

/-! ## The rules of binary operators -/

/-- What the rules make of a binary expression. An operand that is dropped or repeated has no impure
calls, either because the rule asks for a pure one or because it is folded. -/
inductive Rewritten (left right : Expr ν) : Expr ν → Prop
  | left : right.impureCalls = [] → Rewritten left right left
  | right : left.impureCalls = [] → Rewritten left right right
  | literal (n : Int) : left.impureCalls = [] → right.impureCalls = [] →
    Rewritten left right (.ofInt n)
  | twiceLeft : left.impureCalls = [] → right.impureCalls = [] →
    Rewritten left right (.binary .add left left)
  | twiceRight : left.impureCalls = [] → right.impureCalls = [] →
    Rewritten left right (.binary .add right right)
  | power {n : Nat} : n ∈ [2, 3, 4] → left.impureCalls = [] → right.impureCalls = [] →
    Rewritten left right (left.product n)

theorem Rewritten.impureCalls_eq (h : Rewritten left right result) :
    result.impureCalls = left.impureCalls ++ right.impureCalls := by
  cases h with
  | left hright => simp [hright]
  | right hleft => simp [hleft]
  | literal n hleft hright => simp [hleft, hright]
  | twiceLeft hleft hright => simp [hleft, hright]
  | twiceRight hleft hright => simp [hleft, hright]
  | power _ hleft hright => simp [impureCalls_product hleft, hleft, hright]

/-- Operands that are found to be the same are pure. -/
theorem impureCalls_of_same (h : (left.isPure && right.isPure && left.key == right.key) = true) :
    left.impureCalls = [] ∧ right.impureCalls = [] := by
  simp only [Bool.and_eq_true, isPure_iff] at h
  exact h.1

theorem rewritten_of_absorb? {dual : BinaryOp} (h : absorb? dual left right = some result) :
    Rewritten left right result := by
  rw [absorb?] at h
  split at h
  next => cases h
  next hpure =>
    simp only [Bool.or_eq_true, Bool.not_eq_true', not_or, Bool.not_eq_false, isPure_iff] at hpure
    split at h
    next =>
      obtain rfl := Option.some.inj h
      exact .right hpure.1
    split at h
    next =>
      obtain rfl := Option.some.inj h
      exact .left hpure.2
    next => cases h

section Rules

variable {identity : Identity}

theorem rewritten_of_step_mul
    (h : binaryStep boolean .mul left right = .replace result identity) :
    Rewritten left right result := by
  rw [binaryStep] at h
  dsimp only at h
  split at h
  next hc =>
    cases h
    rw [Bool.and_eq_true, isPure_iff] at hc
    exact .literal 0 hc.2 (impureCalls_of_isNumber hc.1)
  split at h
  next hc =>
    cases h
    rw [Bool.and_eq_true, isPure_iff] at hc
    exact .literal 0 (impureCalls_of_isNumber hc.1) hc.2
  split at h
  next hc =>
    cases h
    exact .left (impureCalls_of_isNumber hc)
  split at h
  next hc =>
    cases h
    exact .right (impureCalls_of_isNumber hc)
  split at h
  next hc =>
    cases h
    rw [Bool.and_eq_true, isPure_iff] at hc
    exact .twiceLeft hc.2 (impureCalls_of_isNumber hc.1)
  split at h
  next hc =>
    cases h
    rw [Bool.and_eq_true, isPure_iff] at hc
    exact .twiceRight (impureCalls_of_isNumber hc.1) hc.2
  -- what is left over is a remark about a shift at most
  split at h
  next => split at h <;> cases h
  next => cases h

theorem rewritten_of_step_intDiv
    (h : binaryStep boolean .intDiv left right = .replace result identity) :
    Rewritten left right result := by
  rw [binaryStep] at h
  split at h
  next hc =>
    cases h
    exact .left (impureCalls_of_isNumber hc)
  split at h
  next => split at h <;> cases h
  next => cases h

theorem rewritten_of_step_pow
    (h : binaryStep boolean .pow left right = .replace result identity) :
    Rewritten left right result := by
  rw [binaryStep] at h
  split at h
  next hc =>
    cases h
    rw [Bool.and_eq_true, isPure_iff] at hc
    exact .literal 1 hc.2 (impureCalls_of_isNumber hc.1)
  split at h
  next hc =>
    cases h
    exact .left (impureCalls_of_isNumber hc)
  split at h
  next hpure =>
    split at h
    next n hfind =>
      cases h
      have hc := List.find?_some hfind
      exact .power (List.mem_of_find?_eq_some hfind) (isPure_iff.1 hpure)
        (impureCalls_of_isNumber hc)
    next => cases h
  next => cases h

theorem rewritten_of_step_and
    (h : binaryStep boolean .and left right = .replace result identity) :
    Rewritten left right result := by
  rw [binaryStep] at h
  split at h
  next hc =>
    cases h
    simp only [Bool.or_eq_true, Bool.and_eq_true, isPure_iff] at hc
    rcases hc with hc | hc
    · exact .literal 0 hc.2 (impureCalls_of_isNumber hc.1)
    · exact .literal 0 (impureCalls_of_isNumber hc.1) hc.2
  split at h
  next hc =>
    cases h
    exact .left (impureCalls_of_isNumber hc)
  split at h
  next hc =>
    cases h
    exact .right (impureCalls_of_isNumber hc)
  split at h
  next hc =>
    cases h
    exact .left (impureCalls_of_same hc).2
  split at h
  next =>
    split at h
    next habsorb =>
      cases h
      exact rewritten_of_absorb? habsorb
    next => cases h
  next => cases h

theorem rewritten_of_step_or
    (h : binaryStep boolean .or left right = .replace result identity) :
    Rewritten left right result := by
  rw [binaryStep] at h
  split at h
  next hc =>
    cases h
    simp only [Bool.or_eq_true, Bool.and_eq_true, isPure_iff] at hc
    rcases hc with hc | hc
    · exact .literal (-1) hc.2 (impureCalls_of_isNumber hc.1)
    · exact .literal (-1) (impureCalls_of_isNumber hc.1) hc.2
  split at h
  next hc =>
    cases h
    exact .left (impureCalls_of_isNumber hc)
  split at h
  next hc =>
    cases h
    exact .right (impureCalls_of_isNumber hc)
  split at h
  next hc =>
    cases h
    exact .left (impureCalls_of_same hc).2
  split at h
  next =>
    split at h
    next habsorb =>
      cases h
      exact rewritten_of_absorb? habsorb
    next => cases h
  next => cases h

/-- Every rule of a binary operator gives an operand, a literal, or an operand with itself. -/
theorem rewritten_of_binaryStep {op : BinaryOp}
    (h : binaryStep boolean op left right = .replace result identity) :
    Rewritten left right result := by
  cases op with
  | mul => exact rewritten_of_step_mul h
  | intDiv => exact rewritten_of_step_intDiv h
  | pow => exact rewritten_of_step_pow h
  | and => exact rewritten_of_step_and h
  | or => exact rewritten_of_step_or h
  | div =>
    rw [binaryStep] at h
    split at h
    next hc =>
      cases h
      exact .left (impureCalls_of_isNumber hc)
    next => cases h
  | add =>
    rw [binaryStep] at h
    split at h
    next hc =>
      cases h
      exact .left (impureCalls_of_isNumber hc)
    split at h
    next hc =>
      cases h
      exact .right (impureCalls_of_isNumber hc)
    next => cases h
  | sub =>
    rw [binaryStep] at h
    split at h
    next hc =>
      cases h
      exact .left (impureCalls_of_isNumber hc)
    split at h
    next hc =>
      cases h
      exact .literal 0 (impureCalls_of_same hc).1 (impureCalls_of_same hc).2
    next => cases h
  | xor =>
    rw [binaryStep] at h
    split at h
    next hc =>
      cases h
      exact .left (impureCalls_of_isNumber hc)
    split at h
    next hc =>
      cases h
      exact .right (impureCalls_of_isNumber hc)
    split at h
    next hc =>
      cases h
      exact .literal 0 (impureCalls_of_same hc).1 (impureCalls_of_same hc).2
    next => cases h
  | _ => cases h

end Rules

theorem impureCalls_reduceBinary (boolean : Bool) (op : BinaryOp) (left right : Expr ν) :
    (reduceBinary boolean op left right).1.impureCalls =
      left.impureCalls ++ right.impureCalls := by
  rw [reduceBinary]
  split
  next hconstant =>
    rw [impureCalls_toExpr, ← impureCalls_binary op]
    exact (impureCalls_of_evaluate? hconstant).symm
  next =>
    split
    next => exact impureCalls_binary op left right
    next => exact impureCalls_binary op left right
    next hstep => exact (rewritten_of_binaryStep hstep).impureCalls_eq

/-! ## Unary operators -/

theorem impureCalls_negate (e : Expr ν) : (negate e).1.impureCalls = e.impureCalls := by
  rw [negate]
  split
  next hconstant =>
    rw [impureCalls_of_constantNumber? hconstant]
    split <;> rfl
  next => rfl

theorem impureCalls_complement (boolean : Bool) (e : Expr ν) :
    (complement boolean e).1.impureCalls = e.impureCalls := by
  fun_induction complement boolean e with
  | case1 _ _ _ _ hconstant => exact (impureCalls_of_constantNumber? hconstant).symm
  | case2 _ _ _ _ hconstant => exact (impureCalls_of_constantNumber? hconstant).symm
  | case3 e boolean before n hconstant =>
    cases UnaryOp.not.result? n with
    | none => rfl
    | some m => exact (impureCalls_of_constantNumber? hconstant).symm
  | case4 left right before _ ihl ihr => simp [complement.pushed, ihl, ihr]
  | case5 left right before _ ihl ihr => simp [complement.pushed, ihl, ihr]
  | case6 op left right _ _ inverse => rw [impureCalls_binary, impureCalls_binary]
  | case7 => rfl
  | case8 => rfl

/-! ## The whole reduction -/

omit [Arithmetic ν] in
theorem flatMap_impureCalls_eq {es reduced : List (Expr ν)}
    (h : List.Forall₂ (fun e r => r.impureCalls = e.impureCalls) es reduced) :
    reduced.flatMap impureCalls = es.flatMap impureCalls := by
  induction h with
  | nil => rfl
  | cons h _ ih => rw [List.flatMap_cons, List.flatMap_cons, h, ih]

theorem stepsEnsure_impureCalls (boolean : Bool) :
    StepsEnsure boolean fun e r : Expr ν => r.impureCalls = e.impureCalls where
  trivial _ := rfl
  element h := by rw [impureCalls_element, impureCalls_element, flatMap_impureCalls_eq h]
  call h := by rw [impureCalls_call, impureCalls_call, flatMap_impureCalls_eq h]
  intrinsic {f args reduced} h := by
    have hrebuilt : (Expr.intrinsic f reduced).impureCalls = (Expr.intrinsic f args).impureCalls := by
      rw [impureCalls_intrinsic, impureCalls_intrinsic, flatMap_impureCalls_eq h]
    rw [← hrebuilt]
    cases hconstant : (Expr.intrinsic f reduced).constant? with
    | none => rfl
    | some v =>
      rw [Option.elim_some, impureCalls_toExpr]
      exact (impureCalls_of_evaluate? hconstant).symm
  cancel {op e _} h := h.trans (impureCalls_unary op e).symm
  unary {op _ r} h := by
    cases op with
    | neg => exact (impureCalls_negate r).trans h
    | not => exact (impureCalls_complement boolean r).trans h
  binary hl hr := by rw [impureCalls_reduceBinary, hl, hr, impureCalls_binary]

/-- The impure calls of a reduced expression are those of the expression, in their order. -/
theorem impureCalls_reduce (boolean : Bool) (e : Expr ν) :
    (e.reduce boolean).1.impureCalls = e.impureCalls :=
  (stepsEnsure_impureCalls boolean).reduce e

end Expr
end LineBasic
