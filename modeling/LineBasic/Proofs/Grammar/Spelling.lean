import LineBasic.Proofs.Decimal.Writing
import LineBasic.Proofs.Expr.Subterms
import LineBasic.Proofs.Grammar.Accepted
import LineBasic.Proofs.Grammar.Numbers

/-!
# The spelling of expressions

The names and the literals of an expression that was read have a form in which they are read again
(`Expr.IsSpelled`, `Grammar.isSpelled_of_expression`). They keep it when names are written in
capital letters and finite numbers in their canonical form (`Expr.IsSpelled.canonically`). The text
of the expression that is spelled so is the canonical text (`Expr.source_canonically`).
-/

namespace LineBasic

open LineBasic.Parser

/-! ## Names and literals -/

/-- All names and literals have a form that the grammar reads. -/
inductive Expr.IsSpelled : Expr Float → Prop
  | number {value : Float} {text : String} : Grammar.IsNumberText text.toList value →
    IsSpelled (.number value text)
  | string {body : String} : '"' ∉ body.toList → IsSpelled (.string body)
  | scalar {name : Name} : Grammar.IsPlainName name → IsSpelled (.scalar name)
  | element {name : Name} {subscripts : List (Expr Float)} : Grammar.IsPlainName name →
    subscripts ≠ [] → (∀ e ∈ subscripts, IsSpelled e) → IsSpelled (.element name subscripts)
  | unary {op : UnaryOp} {operand : Expr Float} : IsSpelled operand →
    IsSpelled (.unary op operand)
  | binary {op : BinaryOp} {left right : Expr Float} : IsSpelled left → IsSpelled right →
    IsSpelled (.binary op left right)
  | intrinsic {f : Intrinsic} {args : List (Expr Float)} : (∀ e ∈ args, IsSpelled e) →
    IsSpelled (.intrinsic f args)
  | call {name : Name} {args : List (Expr Float)} : Grammar.IsFunctionName name →
    (∀ e ∈ args, IsSpelled e) → IsSpelled (.call name args)

namespace Grammar

theorem exprClosed_isSpelled : ExprClosed Expr.IsSpelled where
  number := fun _ _ _ h => .number (isNumberText_of_number h)
  string := fun _ _ _ h => .string (not_mem_of_quoted h)
  named := fun _ _ _ h hno =>
    have hname := isPlainName_of_variableName h hno
    ⟨.scalar hname, fun _ => .element hname⟩
  call := fun _ _ _ h _ => .call (isFunctionName_of_functionName h)
  intrinsic := fun _ _ => .intrinsic
  unary := fun _ _ => .unary
  binary := fun _ _ _ => .binary

theorem isSpelled_of_expression {s rest : List Char} {e : Expr Float}
    (h : expression s = .accepted e rest) : e.IsSpelled :=
  exprClosed_isSpelled.ensures_expression h

end Grammar

/-! ## The canonical spelling -/

namespace Expr

variable {ν : Type} [Arithmetic ν]

mutual

/-- The expression with its names in capital letters and its numbers in their canonical form. -/
def canonically : Expr ν → Expr ν
  | .number value _ => .ofNumber value
  | .string body => .string body
  | .scalar name => .scalar ⟨name.key⟩
  | .element name subscripts => .element ⟨name.key⟩ (canonicallyList subscripts)
  | .unary op operand => .unary op operand.canonically
  | .binary op left right => .binary op left.canonically right.canonically
  | .intrinsic function args => .intrinsic function (canonicallyList args)
  | .call name args => .call ⟨name.key⟩ (canonicallyList args)

def canonicallyList : List (Expr ν) → List (Expr ν)
  | [] => []
  | e :: rest => e.canonically :: canonicallyList rest

end

theorem canonicallyList_eq_map (es : List (Expr ν)) : canonicallyList es = es.map canonically := by
  induction es with
  | nil => rfl
  | cons e rest ih => rw [canonicallyList, ih, List.map_cons]

theorem precedence_canonically (e : Expr ν) : e.canonically.precedence = e.precedence := by
  cases e <;> rfl

end Expr

theorem Name.key_key (n : Name) : (⟨n.key⟩ : Name).key = n.key := Text.upper_upper n.text

theorem Spelling.name_key (spelling : Spelling) (n : Name) : spelling.name ⟨n.key⟩ = n.key := by
  cases spelling with
  | canonical => exact n.key_key
  | asTyped => rfl

namespace Expr

variable {ν : Type} [Arithmetic ν]

mutual

theorem write_canonically (spelling : Spelling) :
    (e : Expr ν) → e.canonically.write spelling = e.canonical
  | .number .. => by cases spelling <;> rfl
  | .string _ => rfl
  | .scalar name => spelling.name_key name
  | .element name subscripts => by
    simp only [canonically, canonical, write, spelling.name_key,
      writeList_canonicallyList spelling subscripts]
    rfl
  | .unary op operand => by
    have hoperand := write_canonically spelling operand
    simp only [canonical] at hoperand
    simp only [canonically, canonical, write, precedence_canonically, hoperand]
  | .binary op left right => by
    have hleft := write_canonically spelling left
    have hright := write_canonically spelling right
    simp only [canonical] at hleft hright
    simp only [canonically, canonical, write, precedence_canonically, hleft, hright]
  | .intrinsic function args => by
    simp only [canonically, canonical, write, writeList_canonicallyList spelling args]
  | .call name args => by
    simp only [canonically, canonical, write, spelling.name_key,
      writeList_canonicallyList spelling args]
    rfl

theorem writeList_canonicallyList (spelling : Spelling) :
    (es : List (Expr ν)) → writeList spelling (canonicallyList es) = writeList .canonical es
  | [] => rfl
  | e :: rest =>
    congrArg₂ List.cons (write_canonically spelling e) (writeList_canonicallyList spelling rest)

end

/-- What is typed in the canonical spelling is the canonical text. -/
theorem source_canonically (e : Expr ν) : e.canonically.source = e.canonical :=
  write_canonically .asTyped e

theorem canonical_canonically (e : Expr ν) : e.canonically.canonical = e.canonical :=
  write_canonically .canonical e

mutual

theorem key_canonically : (e : Expr ν) → e.canonically.key = e.key
  | .number .. => rfl
  | .string _ => rfl
  | .scalar name => name.key_key
  | .element name subscripts => by
    simp only [canonically, key, name.key_key, keyList_canonicallyList subscripts]
  | .unary op operand => by
    simp only [canonically, key, key_canonically operand]
  | .binary op left right => by
    simp only [canonically, key, key_canonically left, key_canonically right]
  | .intrinsic function args => by
    simp only [canonically, key, keyList_canonicallyList args]
  | .call name args => by
    simp only [canonically, key, name.key_key, keyList_canonicallyList args]

theorem keyList_canonicallyList : (es : List (Expr ν)) → keyList (canonicallyList es) = keyList es
  | [] => rfl
  | e :: rest => congrArg₂ List.cons (key_canonically e) (keyList_canonicallyList rest)

end

/-- No literal of the expression is infinite. -/
def HasFiniteNumbers (e : Expr ν) : Prop :=
  ∀ value text, .number value text ∈ e.subterms → Arithmetic.isFinite value = true

end Expr

namespace Grammar

/-- Names keep their form in capital letters. -/
theorem IsPlainName.key {n : Name} (h : IsPlainName n) : IsPlainName ⟨n.key⟩ where
  spelled := by
    have hkey : (⟨n.key⟩ : Name).text.toList = n.text.toList.map Char.toUpper :=
      String.toList_map
    rw [hkey]
    exact h.spelled.map_toUpper
  admitted := by
    have hadmitted := h.admitted
    unfold isVariableName at hadmitted ⊢
    rwa [n.key_key]
  notIntrinsic := by
    rw [n.key_key]
    exact h.notIntrinsic

theorem IsFunctionName.key {n : Name} (h : IsFunctionName n) : IsFunctionName ⟨n.key⟩ := by
  obtain ⟨fn, w, htext, hfn, hw⟩ := h
  refine ⟨fn.map Char.toUpper, w.map Char.toUpper, ?_, ?_, hw.map_toUpper⟩
  · rw [← List.map_append, ← htext]
    exact String.toList_map
  · rw [map_toUpper_of_foldCase isPlain_fn hfn]
    decide

theorem isNumberText_of_spells {w : List Char} {x : Float} (h : Spells w x) :
    IsNumberText w x := by
  obtain ⟨front, back, hne, hdigits, htext, hvalue⟩ := h
  obtain ⟨hfront, hback⟩ := List.forall_mem_append.1 hdigits
  have hmantissa : IsMantissa (pointed front back) front back := by
    cases back with
    | nil =>
      rw [pointed, List.isEmpty_nil, if_pos rfl, List.append_nil]
      exact .whole hne hfront
    | cons c back => exact .pointed hne hfront hback
  have hsuffix : ∀ c ∈ (none : Option Char), (StorageType.ofSuffix? c).any StorageType.isNumeric := by
    rintro _ ⟨⟩
  have hnumber := IsNumberText.decimal hmantissa .none hsuffix
  have hend : pointed front back ++ ([] ++ (none : Option Char).toList) = pointed front back :=
    List.append_nil _
  have hdecimal : (⟨Text.ofDecimal (front ++ back), 0 - back.length⟩ : Decimal) =
      .ofDigits front back := by
    rw [Int.zero_sub]
    rfl
  rw [hend, hdecimal, hvalue] at hnumber
  rwa [htext]

theorem IsNumberText.exists_decimal {w : List Char} {x : Float} (h : IsNumberText w x) :
    ∃ d : Decimal, x = d.toFloat := by
  cases h with
  | hexadecimal => exact ⟨⟨_, 0⟩, rfl⟩
  | decimal => exact ⟨_, rfl⟩

/-- A finite number that was read is read again from its canonical form. -/
theorem isNumberText_text {w : List Char} {x : Float} (h : IsNumberText w x)
    (hfinite : Arithmetic.isFinite x = true) : IsNumberText (Arithmetic.text x).toList x := by
  obtain ⟨d, rfl⟩ := h.exists_decimal
  exact isNumberText_of_spells (Number.spells_text d hfinite)

end Grammar

namespace Expr

theorem HasFiniteNumbers.of_child {e child : Expr Float} (h : e.HasFiniteNumbers)
    (hchild : child ∈ e.children) : child.HasFiniteNumbers := by
  intro value text hmem
  refine h value text ?_
  cases e with
  | number | string | scalar => cases hchild
  | element | intrinsic | call =>
    exact List.mem_cons_of_mem _ (mem_subtermsOfList.2 ⟨child, hchild, hmem⟩)
  | unary op operand =>
    rw [List.mem_singleton.1 hchild] at hmem
    exact List.mem_cons_of_mem _ hmem
  | binary op left right =>
    rcases List.mem_pair.1 hchild with rfl | rfl
    · exact List.mem_cons_of_mem _ (List.mem_append_left _ hmem)
    · exact List.mem_cons_of_mem _ (List.mem_append_right _ hmem)

/-- The canonical spelling is read as well. -/
theorem IsSpelled.canonically {e : Expr Float} (h : e.IsSpelled) (hfinite : e.HasFiniteNumbers) :
    e.canonically.IsSpelled := by
  have all {args : List (Expr Float)} (hargs : ∀ arg ∈ args, arg.HasFiniteNumbers)
      (ih : ∀ arg ∈ args, arg.HasFiniteNumbers → arg.canonically.IsSpelled) :
      ∀ arg ∈ canonicallyList args, arg.IsSpelled := by
    rw [canonicallyList_eq_map, List.forall_mem_map]
    exact fun arg harg => ih arg harg (hargs arg harg)
  induction h with
  | number htext =>
    exact .number (Grammar.isNumberText_text htext (hfinite _ _ (List.mem_singleton.2 rfl)))
  | string hbody => exact .string hbody
  | scalar hname => exact .scalar hname.key
  | element hname hne _ ih =>
    refine .element hname.key ?_ (all (fun arg => hfinite.of_child) ih)
    rwa [canonicallyList_eq_map, Ne, List.map_eq_nil_iff]
  | unary _ ih => exact .unary (ih (hfinite.of_child (List.mem_singleton.2 rfl)))
  | binary _ _ ihleft ihright =>
    exact .binary (ihleft (hfinite.of_child (List.mem_pair.2 (.inl rfl))))
      (ihright (hfinite.of_child (List.mem_pair.2 (.inr rfl))))
  | intrinsic _ ih => exact .intrinsic (all (fun arg => hfinite.of_child) ih)
  | call hname _ ih => exact .call hname.key (all (fun arg => hfinite.of_child) ih)

end Expr
end LineBasic
