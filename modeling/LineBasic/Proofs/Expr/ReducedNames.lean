import LineBasic.Proofs.Expr.ImpureCalls
import LineBasic.Proofs.Grammar.Spelling

/-!
# Names in reduced expressions

Reduction makes up literals and operators, but no names, and leaves no array without subscripts. So
where the grammar reads all names of an expression, it reads those of the reduced one
(`Expr.NamesRead.reduce`).
-/

namespace LineBasic.Expr

open Grammar

/-! ## Names that the grammar reads -/

section

variable {ν : Type} {e left right : Expr ν} {op : BinaryOp}

/-- The grammar reads the name of the expression, if it has one, and an array has subscripts. -/
def NameRead : Expr ν → Prop
  | .scalar name => IsPlainName name
  | .element name subscripts => IsPlainName name ∧ subscripts ≠ []
  | .call name _ => IsFunctionName name
  | _ => True

/-- The grammar reads all names in the expression. -/
def NamesRead (e : Expr ν) : Prop := ∀ t ∈ e.subterms, t.NameRead

theorem namesRead_iff : e.NamesRead ↔ e.NameRead ∧ ∀ c ∈ e.children, c.NamesRead :=
  forall_mem_subterms_iff

@[simp] theorem namesRead_number (value : ν) (text : String) : (Expr.number value text).NamesRead :=
  namesRead_iff.2 ⟨trivial, nofun⟩

@[simp] theorem namesRead_string (body : String) : (Expr.string body : Expr ν).NamesRead :=
  namesRead_iff.2 ⟨trivial, nofun⟩

@[simp] theorem namesRead_scalar {name : Name} :
    (Expr.scalar name : Expr ν).NamesRead ↔ IsPlainName name :=
  namesRead_iff.trans (and_iff_left nofun)

@[simp] theorem namesRead_unary {op : UnaryOp} : (Expr.unary op e).NamesRead ↔ e.NamesRead :=
  namesRead_iff.trans (by simp [NameRead, children])

@[simp] theorem namesRead_binary :
    (Expr.binary op left right).NamesRead ↔ left.NamesRead ∧ right.NamesRead :=
  namesRead_iff.trans (by simp [NameRead, children])

@[simp] theorem namesRead_element {name : Name} {subscripts : List (Expr ν)} :
    (Expr.element name subscripts).NamesRead ↔
      (IsPlainName name ∧ subscripts ≠ []) ∧ ∀ e ∈ subscripts, e.NamesRead :=
  namesRead_iff

@[simp] theorem namesRead_intrinsic {f : Intrinsic} {args : List (Expr ν)} :
    (Expr.intrinsic f args).NamesRead ↔ ∀ e ∈ args, e.NamesRead :=
  namesRead_iff.trans (and_iff_right trivial)

@[simp] theorem namesRead_call {name : Name} {args : List (Expr ν)} :
    (Expr.call name args).NamesRead ↔ IsFunctionName name ∧ ∀ e ∈ args, e.NamesRead :=
  namesRead_iff

theorem IsSpelled.namesRead {e : Expr Float} (h : e.IsSpelled) : e.NamesRead := by
  induction h with
  | number | string => simp
  | scalar hname => simpa using hname
  | element hname hne _ ih => simpa [hname, hne] using ih
  | unary _ ih => simpa using ih
  | binary _ _ ihleft ihright => simpa using ⟨ihleft, ihright⟩
  | intrinsic _ ih => simpa using ih
  | call hname _ ih => simpa [hname] using ih

theorem NamesRead.product (h : e.NamesRead) (n : Nat) : (e.product n).NamesRead := by
  rw [Expr.product]
  refine List.foldlRecOn (motive := fun acc : Expr ν => acc.NamesRead) _ _ h ?_
  exact fun acc hacc _ _ => namesRead_binary.2 ⟨hacc, h⟩

end

/-! ## What the steps keep -/

section

variable {ν : Type} [Arithmetic ν] {e left right result : Expr ν} {op : BinaryOp} {boolean : Bool}

theorem namesRead_toExpr (v : Value ν) : v.toExpr.NamesRead := by
  cases v with
  | number n => exact namesRead_number n _
  | string s => exact namesRead_string s

theorem Rewritten.namesRead (h : Rewritten left right result) (hl : left.NamesRead)
    (hr : right.NamesRead) : result.NamesRead := by
  cases h with
  | left => exact hl
  | right => exact hr
  | literal n => exact namesRead_number _ _
  | twiceLeft => exact namesRead_binary.2 ⟨hl, hl⟩
  | twiceRight => exact namesRead_binary.2 ⟨hr, hr⟩
  | power => exact hl.product _

theorem NamesRead.reduceBinary (op : BinaryOp) (hl : left.NamesRead) (hr : right.NamesRead) :
    (reduceBinary boolean op left right).1.NamesRead := by
  rw [Expr.reduceBinary]
  split
  next v _ => exact namesRead_toExpr v
  next =>
    split
    next => exact namesRead_binary.2 ⟨hl, hr⟩
    next => exact namesRead_binary.2 ⟨hl, hr⟩
    next hstep => exact (rewritten_of_binaryStep hstep).namesRead hl hr

theorem NamesRead.negate (h : e.NamesRead) : (negate e).1.NamesRead := by
  rw [Expr.negate]
  split
  next => split <;> exact namesRead_number _ _
  next => exact namesRead_unary.2 h

theorem NamesRead.complement (h : e.NamesRead) : (complement boolean e).1.NamesRead := by
  revert h
  fun_induction Expr.complement boolean e with
  | case1 | case2 => exact fun _ => namesRead_number _ _
  | case3 _ _ _ n =>
    intro h
    cases UnaryOp.not.result? n with
    | none => exact namesRead_unary.2 h
    | some m => exact namesRead_number _ _
  | case4 left right _ _ ihl ihr | case5 left right _ _ ihl ihr =>
    intro h
    obtain ⟨hl, hr⟩ := namesRead_binary.1 h
    exact namesRead_binary.2 ⟨ihl hl, ihr hr⟩
  | case6 => exact fun h => namesRead_binary.2 (namesRead_binary.1 h)
  | case7 | case8 => exact fun h => namesRead_unary.2 h

/-! ## The whole reduction -/

theorem stepsEnsure_namesRead (boolean : Bool) :
    StepsEnsure boolean fun e r : Expr ν => e.NamesRead → r.NamesRead where
  trivial _ := id
  element hargs h := by
    obtain ⟨⟨hname, hne⟩, hes⟩ := namesRead_element.1 h
    refine namesRead_element.2 ⟨⟨hname, ?_⟩, forall_mem_of_forall₂ hargs hes⟩
    rintro rfl
    exact hne (List.forall₂_nil_right_iff.1 hargs)
  call hargs h := by
    obtain ⟨hname, hes⟩ := namesRead_call.1 h
    exact namesRead_call.2 ⟨hname, forall_mem_of_forall₂ hargs hes⟩
  intrinsic {f args reduced} hargs h := by
    cases (Expr.intrinsic f reduced).constant? with
    | some v => exact namesRead_toExpr v
    | none => exact namesRead_intrinsic.2 (forall_mem_of_forall₂ hargs (namesRead_intrinsic.1 h))
  cancel hr h := hr (namesRead_unary.1 h)
  unary {op _ _} hr h := by
    cases op with
    | neg => exact (hr h).negate
    | not => exact (hr h).complement
  binary {op _ _ _ _} hl hr h := by
    obtain ⟨hleft, hright⟩ := namesRead_binary.1 h
    exact (hl hleft).reduceBinary op (hr hright)

/-- Where the grammar reads all names, it does so after reduction. -/
theorem NamesRead.reduce (h : e.NamesRead) (boolean : Bool) : (e.reduce boolean).1.NamesRead :=
  (stepsEnsure_namesRead boolean).reduce e h

end

end LineBasic.Expr
