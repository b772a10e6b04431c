import LineBasic.Expr.Reduction
import LineBasic.Proofs.Grammar.Spelling
import LineBasic.Range.Condition
import LineBasic.Range.Integer

/-!
# Expressions in the canonical spelling

What is computed from an expression depends on the keys of its names and on the values of its
numbers only. It is the same for `Expr.canonically e` as for `e`, or, where it is an expression
itself, the one is the other in the canonical spelling: subexpressions, values, ranges and, in
`Expr.reduce_canonically`, reductions with their reports.
-/

namespace LineBasic

attribute [simp] Name.key_key

@[simp] theorem Name.suffix?_key (n : Name) : (⟨n.key⟩ : Name).suffix? = n.suffix? := by
  rw [suffix?, n.key_key, suffix?]

@[simp] theorem Name.initial_key (n : Name) : (⟨n.key⟩ : Name).initial = n.initial := by
  rw [initial, n.key_key, initial]

namespace Expr

variable {ν : Type} [Arithmetic ν]

/-! ## Subexpressions -/

theorem canonically_ofInt (n : Int) : (ofInt n : Expr ν).canonically = ofInt n := rfl

@[simp] theorem number?_canonically (e : Expr ν) : e.canonically.number? = e.number? := by
  cases e <;> rfl

@[simp] theorem isTrivial_canonically (e : Expr ν) : e.canonically.isTrivial = e.isTrivial := by
  cases e <;> rfl

@[simp] theorem isImpureCall_canonically (e : Expr ν) :
    e.canonically.isImpureCall = e.isImpureCall := by
  cases e <;> rfl

@[simp] theorem isEmpty_canonicallyList (es : List (Expr ν)) :
    (canonicallyList es).isEmpty = es.isEmpty := by
  cases es <;> rfl

mutual

theorem subterms_canonically : (e : Expr ν) → e.canonically.subterms = e.subterms.map canonically
  | .number .. | .string _ | .scalar _ => rfl
  | .element _ subscripts => congrArg _ (subtermsOfList_canonicallyList subscripts)
  | .unary _ operand => congrArg _ (subterms_canonically operand)
  | .binary _ left right => by
    simp only [canonically, subterms, subterms_canonically left, subterms_canonically right,
      List.map_cons, List.map_append]
  | .intrinsic _ args => congrArg _ (subtermsOfList_canonicallyList args)
  | .call _ args => congrArg _ (subtermsOfList_canonicallyList args)

theorem subtermsOfList_canonicallyList : (es : List (Expr ν)) →
    subtermsOfList (canonicallyList es) = (subtermsOfList es).map canonically
  | [] => rfl
  | e :: rest => by
    simp only [canonicallyList, subtermsOfList, subterms_canonically e,
      subtermsOfList_canonicallyList rest, List.map_append]

end

mutual

theorem subtermsFromRight_canonically :
    (e : Expr ν) → e.canonically.subtermsFromRight = e.subtermsFromRight.map canonically
  | .number .. | .string _ | .scalar _ => rfl
  | .element _ subscripts => congrArg _ (subtermsFromRightOfList_canonicallyList subscripts)
  | .unary _ operand => congrArg _ (subtermsFromRight_canonically operand)
  | .binary _ left right => by
    simp only [canonically, subtermsFromRight, subtermsFromRight_canonically left,
      subtermsFromRight_canonically right, List.map_cons, List.map_append]
  | .intrinsic _ args => congrArg _ (subtermsFromRightOfList_canonicallyList args)
  | .call _ args => congrArg _ (subtermsFromRightOfList_canonicallyList args)

theorem subtermsFromRightOfList_canonicallyList : (es : List (Expr ν)) →
    subtermsFromRightOfList (canonicallyList es) = (subtermsFromRightOfList es).map canonically
  | [] => rfl
  | e :: rest => by
    simp only [canonicallyList, subtermsFromRightOfList, subtermsFromRight_canonically e,
      subtermsFromRightOfList_canonicallyList rest, List.map_append]

end

theorem children_canonically (e : Expr ν) : e.canonically.children = canonicallyList e.children := by
  cases e <;> rfl

omit [Arithmetic ν] in
theorem largest_eq (p : Expr ν → Bool) (e : Expr ν) :
    e.largest p = if p e then [e] else largestOfList p e.children := by
  cases e <;> simp [largest, largestOfList, children]

theorem largest_canonically_of_children {p : Expr ν → Bool} (h : ∀ e, p e.canonically = p e)
    {e : Expr ν} (ih : largestOfList p (canonicallyList e.children) =
      (largestOfList p e.children).map canonically) :
    e.canonically.largest p = (e.largest p).map canonically := by
  rw [largest_eq, largest_eq p e, h, children_canonically, ih, apply_ite (List.map _)]
  rfl

mutual

theorem largest_canonically {p : Expr ν → Bool} (h : ∀ e, p e.canonically = p e) :
    (e : Expr ν) → e.canonically.largest p = (e.largest p).map canonically
  | .number .. | .string _ | .scalar _ => largest_canonically_of_children h rfl
  | .element _ subscripts =>
    largest_canonically_of_children h (largestOfList_canonicallyList h subscripts)
  | .unary _ operand => by
    refine largest_canonically_of_children h ?_
    simp only [children, canonicallyList, largestOfList, largest_canonically h operand,
      List.append_nil]
  | .binary _ left right => by
    refine largest_canonically_of_children h ?_
    simp only [children, canonicallyList, largestOfList, largest_canonically h left,
      largest_canonically h right, List.append_nil, List.map_append]
  | .intrinsic _ args => largest_canonically_of_children h (largestOfList_canonicallyList h args)
  | .call _ args => largest_canonically_of_children h (largestOfList_canonicallyList h args)

theorem largestOfList_canonicallyList {p : Expr ν → Bool} (h : ∀ e, p e.canonically = p e) :
    (es : List (Expr ν)) →
      largestOfList p (canonicallyList es) = (largestOfList p es).map canonically
  | [] => rfl
  | e :: rest => by
    simp only [canonicallyList, largestOfList, largest_canonically h e,
      largestOfList_canonicallyList h rest, List.map_append]

end

@[simp] theorem hasSideEffects_canonically (e : Expr ν) :
    e.canonically.hasSideEffects = e.hasSideEffects := by
  simp only [hasSideEffects, subterms_canonically, List.any_map, Function.comp_def,
    isImpureCall_canonically]

/-! ## Values -/

mutual

@[simp] theorem evaluate?_canonically (value : String → Option ν) :
    (e : Expr ν) → e.canonically.evaluate? value = e.evaluate? value
  | .number .. | .string _ | .element .. | .call .. => rfl
  | .scalar name => by simp only [canonically, evaluate?, name.key_key]
  | .unary _ operand => by simp only [canonically, evaluate?, evaluate?_canonically value operand]
  | .binary _ left right => by
    simp only [canonically, evaluate?, evaluate?_canonically value left,
      evaluate?_canonically value right]
  | .intrinsic _ args => by
    simp only [canonically, evaluate?, evaluateList?_canonicallyList value args]

theorem evaluateList?_canonicallyList (value : String → Option ν) :
    (es : List (Expr ν)) → evaluateList? value (canonicallyList es) = evaluateList? value es
  | [] => rfl
  | e :: rest => by
    simp only [canonicallyList, evaluateList?, evaluate?_canonically value e,
      evaluateList?_canonicallyList value rest]

end

@[simp] theorem constant?_canonically (e : Expr ν) : e.canonically.constant? = e.constant? :=
  e.evaluate?_canonically _

@[simp] theorem constantNumber?_canonically (e : Expr ν) :
    e.canonically.constantNumber? = e.constantNumber? := by
  rw [constantNumber?, constant?_canonically, constantNumber?]

/-- A number with a minus sign. -/
def isNegatedNumber : Expr ν → Bool
  | .unary .neg (.number ..) => true
  | _ => false

omit [Arithmetic ν] in
theorem isNegatedNumber_neg (operand : Expr ν) :
    (unary .neg operand).isNegatedNumber = operand.number?.isSome := by
  cases operand <;> rfl

theorem isNegatedNumber_canonically (e : Expr ν) :
    e.canonically.isNegatedNumber = e.isNegatedNumber := by
  cases e with
  | unary op operand =>
    cases op with
    | neg =>
      rw [isNegatedNumber_neg, ← number?_canonically, ← isNegatedNumber_neg]
      rfl
    | not => rfl
  | _ => rfl

theorem isFoldable_eq (e : Expr ν) :
    e.isFoldable = (!e.isTrivial && !e.isNegatedNumber && e.constant?.isSome) := by
  cases e with
  | unary op operand => cases op <;> cases operand <;> simp [isFoldable, isTrivial, isNegatedNumber]
  | _ => simp [isFoldable, isTrivial, isNegatedNumber]

theorem isFoldable_canonically (e : Expr ν) : e.canonically.isFoldable = e.isFoldable := by
  simp only [isFoldable_eq, isTrivial_canonically, isNegatedNumber_canonically,
    constant?_canonically]

theorem foldable_canonically (e : Expr ν) :
    e.canonically.foldable = e.foldable.map fun (part, value) => (part.canonically, value) := by
  simp only [foldable, largest_canonically isFoldable_canonically, List.filterMap_map,
    List.map_filterMap, Function.comp_def, constant?_canonically, Option.map_map]

/-! ## Ranges -/

mutual

@[simp] theorem interval?_canonically (states : String → RangeState) :
    (e : Expr ν) → e.canonically.interval? states = e.interval? states
  | .number .. | .string _ | .element .. | .call .. => rfl
  | .scalar name => by simp only [canonically, interval?, name.key_key]
  | .unary _ operand => by simp only [canonically, interval?, interval?_canonically states operand]
  | .binary _ left right => by
    simp only [canonically, interval?, interval?_canonically states left,
      interval?_canonically states right]
  | .intrinsic _ args => by
    simp only [canonically, interval?, intervalsOfList_canonicallyList states args]

theorem intervalsOfList_canonicallyList (states : String → RangeState) :
    (es : List (Expr ν)) → intervalsOfList states (canonicallyList es) = intervalsOfList states es
  | [] => rfl
  | e :: rest => by
    simp only [canonicallyList, intervalsOfList, interval?_canonically states e,
      intervalsOfList_canonicallyList states rest]

end

end Expr

variable {ν : Type} [Arithmetic ν]

/-- The key of an expression that only reads a scalar. -/
def Expr.scalarKey? : Expr ν → Option String
  | .scalar name => some name.key
  | _ => none

@[simp] theorem Expr.scalarKey?_canonically (e : Expr ν) :
    e.canonically.scalarKey? = e.scalarKey? := by
  cases e with
  | scalar name => exact congrArg some name.key_key
  | _ => rfl

theorem comparison?_eq (op : BinaryOp) (left right : Expr ν) :
    comparison? op left right = match left.scalarKey?, right.scalarKey? with
      | some name, _ => right.constantNumber?.map fun c => (name, op, c)
      | none, some name => do
        let swapped ← op.swapped?
        let c ← left.constantNumber?
        return (name, swapped, c)
      | none, none => none := by
  cases left <;> cases right <;> rfl

theorem comparison?_canonically (op : BinaryOp) (left right : Expr ν) :
    comparison? op left.canonically right.canonically = comparison? op left right := by
  simp only [comparison?_eq, Expr.scalarKey?_canonically, Expr.constantNumber?_canonically]

theorem constraints_canonically (holds : Bool) (condition : Expr ν) :
    constraints holds condition.canonically = constraints holds condition := by
  fun_induction constraints holds condition with
  | case1 holds operand ih => simp only [Expr.canonically, constraints, ih]
  | case2 left right ihl ihr => simp only [Expr.canonically, constraints, ihl, ihr]; rfl
  | case3 holds left right h => simp only [Expr.canonically, constraints, h]; rfl
  | case4 => rfl
  | case5 holds left right h ihl ihr => simp only [Expr.canonically, constraints, ihl, ihr, h]; rfl
  | case6 holds op left right hand hor h =>
    rw [Expr.canonically, constraints, if_pos h, comparison?_canonically] <;> assumption
  | case7 holds op left right hand hor h =>
    rw [Expr.canonically, constraints, if_neg h] <;> assumption
  | case8 condition holds hnot hand hor hbinary =>
    cases condition with
    | unary op operand =>
      cases op with
      | neg => rfl
      | not => cases hnot operand rfl
    | binary op left right => cases hbinary op left right rfl
    | _ => rfl

end LineBasic
