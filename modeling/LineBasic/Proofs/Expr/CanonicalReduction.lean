import LineBasic.Proofs.Expr.CanonicalSpelling
import LineBasic.Proofs.Expr.Reduction

/-!
# Reductions in the canonical spelling

The rules of reduction compare keys and folded operands, so the reduction of an expression in the
canonical spelling is the reduced expression in that spelling, and the reports, which show
canonical texts, are the same (`Expr.reduce_canonically`).
-/

namespace LineBasic

variable {ν : Type} [Arithmetic ν]

/-- The step with its result in the canonical spelling. -/
def ReductionStep.canonically : ReductionStep ν → ReductionStep ν
  | keep => keep
  | remark text identity => remark text identity
  | replace result identity => replace result.canonically identity

@[simp] theorem ReductionStep.canonically_keep :
    (keep : ReductionStep ν).canonically = keep := rfl

@[simp] theorem ReductionStep.canonically_remark (text : String) (identity : Identity) :
    (remark text identity : ReductionStep ν).canonically = remark text identity := rfl

@[simp] theorem ReductionStep.canonically_replace (result : Expr ν) (identity : Identity) :
    (replace result identity).canonically = replace result.canonically identity := rfl

theorem Value.canonically_toExpr (v : Value ν) : v.toExpr.canonically = v.toExpr := by
  cases v <;> rfl

namespace Expr

/-- An expression with reports, the expression in the canonical spelling. -/
def reportedCanonically : Expr ν × List Reduction → Expr ν × List Reduction :=
  Prod.map canonically id

@[simp] theorem isPure_canonically (e : Expr ν) : e.canonically.isPure = e.isPure := by
  rw [isPure, hasSideEffects_canonically, isPure]

theorem absorbs_canonically (dual : BinaryOp) (compound single : Expr ν) :
    absorbs dual compound.canonically single.canonically = absorbs dual compound single := by
  cases compound with
  | binary op left right =>
    have hpure := (binary op left right).isPure_canonically
    simp only [canonically] at hpure
    simp only [canonically, absorbs, key_canonically, hpure]
  | _ => rfl

theorem absorb?_canonically (dual : BinaryOp) (left right : Expr ν) :
    absorb? dual left.canonically right.canonically = (absorb? dual left right).map canonically := by
  simp only [absorb?, isPure_canonically, absorbs_canonically]
  split_ifs <;> rfl

theorem product_canonically (e : Expr ν) (n : Nat) :
    e.canonically.product n = (e.product n).canonically :=
  List.foldl_hom canonically fun _ _ => rfl

theorem binaryStep_canonically (boolean : Bool) (op : BinaryOp) (left right : Expr ν) :
    binaryStep boolean op left.canonically right.canonically =
      (binaryStep boolean op left right).canonically := by
  simp only [binaryStep, constantNumber?_canonically, isPure_canonically, key_canonically,
    absorb?_canonically, product_canonically, canonical_canonically]
  cases op with
  | mul =>
    cases right.constantNumber?.bind shiftAmount? <;>
      cases left.constantNumber?.bind shiftAmount? <;>
        simp [apply_ite ReductionStep.canonically, canonically_ofInt, canonically,
          canonical_canonically]
  | intDiv =>
    cases right.constantNumber?.bind shiftAmount? <;> simp [apply_ite ReductionStep.canonically]
  | pow =>
    cases [2, 3, 4].find? fun n => isNumber right.constantNumber? (Int.ofNat n) <;>
      simp [apply_ite ReductionStep.canonically, canonically_ofInt]
  | and => cases absorb? .or left right <;> simp [apply_ite ReductionStep.canonically, canonically_ofInt]
  | or => cases absorb? .and left right <;> simp [apply_ite ReductionStep.canonically, canonically_ofInt]
  | div | add | sub | xor => simp [apply_ite ReductionStep.canonically, canonically_ofInt]
  | _ => rfl

theorem reduceBinary_canonically (boolean : Bool) (op : BinaryOp) (left right : Expr ν) :
    reduceBinary boolean op left.canonically right.canonically =
      reportedCanonically (reduceBinary boolean op left right) := by
  have hconstant := (binary op left right).constant?_canonically
  have hcanonical := (binary op left right).canonical_canonically
  simp only [canonically] at hconstant hcanonical
  simp only [reduceBinary, hconstant, hcanonical, binaryStep_canonically]
  cases (binary op left right).constant? with
  | some value => exact congrArg (·, []) value.canonically_toExpr.symm
  | none =>
    cases binaryStep boolean op left right with
    | keep => rfl
    | remark => rfl
    | replace after identity =>
      simp only [ReductionStep.canonically, canonical_canonically]
      rfl

theorem negate_canonically (operand : Expr ν) :
    negate operand.canonically = reportedCanonically (negate operand) := by
  have hcanonical := (unary .neg operand).canonical_canonically
  simp only [canonically] at hcanonical
  simp only [negate, constantNumber?_canonically, hcanonical]
  cases operand.constantNumber? with
  | none => rfl
  | some v =>
    dsimp
    split_ifs <;> rfl

theorem canonically_pushed (before : Expr ν) (dual : BinaryOp)
    (left right : Expr ν × List Reduction) :
    complement.pushed before.canonically dual (reportedCanonically left)
      (reportedCanonically right) =
      reportedCanonically (complement.pushed before dual left right) := by
  have hcanonical := (binary dual left.1 right.1).canonical_canonically
  simp only [canonically] at hcanonical
  simp only [complement.pushed, reportedCanonically, Prod.map, id, canonical_canonically,
    hcanonical, canonically]

theorem complement_canonically (boolean : Bool) (operand : Expr ν) :
    complement boolean operand.canonically = reportedCanonically (complement boolean operand) := by
  have hbefore (e : Expr ν) : (unary .not e.canonically).canonical = (unary .not e).canonical :=
    (unary .not e).canonical_canonically
  fun_induction complement boolean operand with
  | case1 operand boolean before v hv h =>
    rw [complement.eq_def, constantNumber?_canonically, hv]
    dsimp only
    rw [if_pos h, hbefore]
    rfl
  | case2 operand boolean before v hv h hone =>
    rw [complement.eq_def, constantNumber?_canonically, hv]
    dsimp only
    rw [if_neg h, if_pos hone, hbefore]
    rfl
  | case3 operand boolean before v hv h hone =>
    rw [complement.eq_def, constantNumber?_canonically, hv]
    dsimp only
    rw [if_neg h, if_neg hone]
    cases UnaryOp.not.result? v <;> rfl
  | case4 left right before hv ihright ihleft =>
    rw [complement.eq_def, constantNumber?_canonically, hv]
    dsimp only [canonically]
    rw [ihleft, ihright]
    exact canonically_pushed before .or _ _
  | case5 left right before hv ihright ihleft =>
    rw [complement.eq_def, constantNumber?_canonically, hv]
    dsimp only [canonically]
    rw [ihleft, ihright]
    exact canonically_pushed before .and _ _
  | case6 op left right hand hor inverse hinverse after before hv =>
    rw [complement.eq_def, constantNumber?_canonically, hv]
    have hafter : (binary inverse left.canonically right.canonically).canonical =
        after.canonical := after.canonical_canonically
    simp only [canonically, hinverse, hafter]
    exact congrArg (fun text => (_, [Reduction.mk .relationalInversion text after.canonical 0]))
      (hbefore (.binary op left right))
  | case7 op left right hand hor hinverse before hv =>
    rw [complement.eq_def, constantNumber?_canonically, hv]
    simp only [canonically, hinverse]
    rfl
  | case8 operand boolean before hv hand hor hbinary =>
    rw [complement.eq_def, constantNumber?_canonically, hv]
    cases operand with
    | binary op left right =>
      cases boolean with
      | true => cases hbinary op left right rfl rfl
      | false => rfl
    | _ => cases boolean <;> rfl

theorem canonically_wrap (op : UnaryOp) (n : Nat) (e : Expr ν) :
    (wrap op n e).canonically = wrap op n e.canonically := by
  induction n with
  | zero => rfl
  | succ n ih => exact congrArg (unary op) ih

theorem pairReports_canonically (op : UnaryOp) (n : Nat) (operand : Expr ν) :
    pairReports op n operand.canonically = pairReports op n operand := by
  simp only [pairReports, ← canonically_wrap, canonical_canonically]

/-- The run with its operand in the canonical spelling. -/
def Run.canonically (run : Run ν) : Run ν := { run with operand := run.operand.canonically }

theorem Run.finish_canonically (boolean : Bool) (run : Run ν) :
    run.canonically.finish boolean = reportedCanonically (run.finish boolean) := by
  simp only [finish, canonically, pairReports_canonically, negate_canonically,
    complement_canonically]
  cases run.operator with
  | none => rfl
  | some operator =>
    obtain ⟨op, n⟩ := operator
    dsimp
    split_ifs
    · rfl
    · cases op <;> rfl

theorem Run.extend_canonically (boolean : Bool) (op : UnaryOp) (run : Run ν) :
    run.canonically.extend boolean op = (run.extend boolean op).canonically := by
  simp only [extend, finish_canonically]
  simp only [canonically]
  cases run.operator with
  | none => rfl
  | some operator =>
    dsimp
    split_ifs <;> rfl

mutual

theorem run_canonically (boolean : Bool) :
    (e : Expr ν) → e.canonically.run boolean = (e.run boolean).canonically
  | .number .. | .string _ | .scalar _ => rfl
  | .unary op operand => by
    simp only [canonically, run, run_canonically boolean operand, Run.extend_canonically]
  | .binary op left right => by
    simp only [canonically, run, run_canonically boolean left, run_canonically boolean right,
      Run.finish_canonically, reportedCanonically, Prod.map, reduceBinary_canonically]
    rfl
  | .element name subscripts => by
    simp only [canonically, run, reduceList_canonicallyList boolean subscripts]
    rfl
  | .intrinsic f args => by
    have hconstant := (intrinsic f (reduceList boolean args).1).constant?_canonically
    simp only [canonically] at hconstant
    simp only [canonically, run, reduceList_canonicallyList boolean args, Prod.map, hconstant]
    cases (intrinsic f (reduceList boolean args).1).constant? with
    | none => rfl
    | some value => exact congrArg (Run.mk none · _) value.canonically_toExpr.symm
  | .call name args => by
    simp only [canonically, run, reduceList_canonicallyList boolean args]
    rfl

theorem reduceList_canonicallyList (boolean : Bool) : (es : List (Expr ν)) →
    reduceList boolean (canonicallyList es) =
      Prod.map canonicallyList id (reduceList boolean es)
  | [] => rfl
  | e :: rest => by
    simp only [canonicallyList, reduceList, run_canonically boolean e, Run.finish_canonically,
      reduceList_canonicallyList boolean rest, reportedCanonically, Prod.map, id]

end

/-- The reduced expression in the canonical spelling, with the same reports. -/
theorem reduce_canonically (boolean : Bool) (e : Expr ν) :
    e.canonically.reduce boolean = reportedCanonically (e.reduce boolean) := by
  rw [reduce, run_canonically, Run.finish_canonically, reduce]

end Expr
end LineBasic
