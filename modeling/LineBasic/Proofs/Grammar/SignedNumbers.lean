import LineBasic.Proofs.Grammar.Spelling

/-!
# Numbers with signs

The grammar takes a sign for an operator and never for a part of a number. So a number that is
written with a minus sign, as reductions leave them, is read as a negated number, and a power with
such a base as a negated power (`Expr.reread`). In an expression that was read there is no such
number, and it is read as it is (`Expr.IsSpelled.reread_eq`).
-/

namespace LineBasic

open Grammar

namespace Expr

/-- The text begins with the minus sign of a number: the expression is that number, or a power at
the front of which it stands. -/
def isSigned : Expr Float → Bool
  | .number _ text => text.toList.head? == some '-'
  | .binary .pow base _ => base.isSigned
  | _ => false

mutual

/-- What the text of the expression is read as, if a minus sign at the front of a number or a power
is read as an operator. -/
def reread : Expr Float → Expr Float
  | .number value text =>
    if isSigned (.number value text) then
      .unary .neg (.number (Arithmetic.absolute value) (String.ofList text.toList.tail))
    else .number (Arithmetic.absolute value) text
  | .string body => .string body
  | .scalar name => .scalar name
  | .element name subscripts => .element name (rereadList subscripts)
  | .unary op operand => .unary op operand.reread
  | .binary op left right =>
    if isSigned (.binary op left right) then .unary .neg (.binary op left.behindSign right.reread)
    else .binary op left.reread right.reread
  | .intrinsic function args => .intrinsic function (rereadList args)
  | .call name args => .call name (rereadList args)

/-- What the text of a number or a power is read as behind the sign at its front. -/
def behindSign : Expr Float → Expr Float
  | .number value text => .number (Arithmetic.absolute value) (String.ofList text.toList.tail)
  | .binary op base exponent => .binary op base.behindSign exponent.reread
  | e => e

def rereadList : List (Expr Float) → List (Expr Float)
  | [] => []
  | e :: rest => e.reread :: rereadList rest

end

/-- All names and literals have a form that the grammar reads, numbers perhaps with a minus sign. -/
inductive IsPrinted : Expr Float → Prop
  | number {value : Float} {text : String} :
    IsNumberText text.toList (Arithmetic.absolute value) → IsPrinted (.number value text)
  | signed {value : Float} {text : String} {digits : List Char} : text.toList = '-' :: digits →
    IsNumberText digits (Arithmetic.absolute value) → IsPrinted (.number value text)
  | string {body : String} : '"' ∉ body.toList → IsPrinted (.string body)
  | scalar {name : Name} : IsPlainName name → IsPrinted (.scalar name)
  | element {name : Name} {subscripts : List (Expr Float)} : IsPlainName name →
    subscripts ≠ [] → (∀ e ∈ subscripts, IsPrinted e) → IsPrinted (.element name subscripts)
  | unary {op : UnaryOp} {operand : Expr Float} : IsPrinted operand →
    IsPrinted (.unary op operand)
  | binary {op : BinaryOp} {left right : Expr Float} : IsPrinted left → IsPrinted right →
    IsPrinted (.binary op left right)
  | intrinsic {f : Intrinsic} {args : List (Expr Float)} : (∀ e ∈ args, IsPrinted e) →
    IsPrinted (.intrinsic f args)
  | call {name : Name} {args : List (Expr Float)} : IsFunctionName name →
    (∀ e ∈ args, IsPrinted e) → IsPrinted (.call name args)

variable {e left right : Expr Float} {op : BinaryOp} {value : Float} {text : String}
  {digits : List Char}

/-! ## Signs at the front -/

theorem isSigned_binary_iff :
    (Expr.binary op left right).isSigned = true ↔ op = .pow ∧ left.isSigned = true := by
  cases op <;> simp [isSigned]

theorem reread_of_isSigned (h : e.isSigned = true) : e.reread = .unary .neg e.behindSign := by
  cases e with
  | number => rw [reread, if_pos h, behindSign]
  | binary => rw [reread, if_pos h, behindSign]
  | _ => cases h

theorem reread_binary (h : (Expr.binary op left right).isSigned = false) :
    (Expr.binary op left right).reread = .binary op left.reread right.reread := by
  rw [reread, h, if_neg Bool.false_ne_true]

/-- A number or a power. -/
theorem precedence_of_isSigned (h : e.isSigned = true) : 13 ≤ e.precedence := by
  cases e with
  | number => exact (by decide : 13 ≤ 14)
  | binary op left right =>
    obtain ⟨rfl, -⟩ := isSigned_binary_iff.1 h
    exact Nat.le_refl 13
  | _ => cases h

theorem precedence_reread (e : Expr Float) :
    e.reread.precedence = if e.isSigned then 12 else e.precedence := by
  cases hsigned : e.isSigned with
  | true =>
    rw [reread_of_isSigned hsigned]
    rfl
  | false =>
    cases e with
    | number value text => rw [reread, hsigned]; rfl
    | binary op left right => rw [reread_binary hsigned]; rfl
    | _ => rfl

theorem precedence_reread_le (e : Expr Float) : e.reread.precedence ≤ e.precedence := by
  rw [precedence_reread]
  split
  next hsigned => exact Nat.le_of_lt (precedence_of_isSigned hsigned)
  next => exact Nat.le_refl _

theorem isSigned_of_isNumberText (h : IsNumberText text.toList value) (x : Float) :
    (Expr.number x text).isSigned = false := by
  obtain ⟨c, more, hc, hfirst⟩ := h.exists_eq_cons
  rw [isSigned, hc, List.head?_cons, beq_eq_false_iff_ne, Ne, Option.some_inj]
  rintro rfl
  rcases hfirst with hfirst | hfirst | hfirst <;> exact absurd hfirst (by decide)

theorem reread_number (h : IsNumberText text.toList value) (x : Float) :
    (Expr.number x text).reread = .number (Arithmetic.absolute x) text := by
  rw [reread, isSigned_of_isNumberText h, if_neg Bool.false_ne_true]

theorem isSigned_of_sign (h : text.toList = '-' :: digits) (x : Float) :
    (Expr.number x text).isSigned = true := by
  rw [isSigned, h]
  rfl

theorem behindSign_number (h : text.toList = '-' :: digits) (x : Float) :
    (Expr.number x text).behindSign =
      .number (Arithmetic.absolute x) (String.ofList digits) := by
  rw [behindSign, h, List.tail_cons]

/-! ## Expressions that were read -/

theorem absolute_of_isNumberText {w : List Char} (h : IsNumberText w value) :
    Arithmetic.absolute value = value := by
  obtain ⟨d, rfl⟩ := h.exists_decimal
  exact d.abs_toFloat

theorem IsSpelled.isPrinted (h : e.IsSpelled) : e.IsPrinted := by
  induction h with
  | number htext => exact .number ((absolute_of_isNumberText htext).symm ▸ htext)
  | string hbody => exact .string hbody
  | scalar hname => exact .scalar hname
  | element hname hne _ ih => exact .element hname hne ih
  | unary _ ih => exact .unary ih
  | binary _ _ ihleft ihright => exact .binary ihleft ihright
  | intrinsic _ ih => exact .intrinsic ih
  | call hname _ ih => exact .call hname ih

theorem IsSpelled.isSigned_eq_false (h : e.IsSpelled) : e.isSigned = false := by
  induction h with
  | number htext => exact isSigned_of_isNumberText htext _
  | binary _ _ ihleft _ =>
    rw [Bool.eq_false_iff, Ne, isSigned_binary_iff, ihleft]
    exact fun h => Bool.false_ne_true h.2
  | _ => rfl

theorem rereadList_eq {es : List (Expr Float)} (h : ∀ e ∈ es, e.reread = e) :
    rereadList es = es := by
  induction es with
  | nil => rfl
  | cons e rest ih =>
    obtain ⟨he, hrest⟩ := List.forall_mem_cons.1 h
    rw [rereadList, he, ih hrest]

theorem IsSpelled.reread_eq (h : e.IsSpelled) : e.reread = e := by
  induction h with
  | number htext => rw [reread_number htext, absolute_of_isNumberText htext]
  | string | scalar => rfl
  | element _ _ _ ih => rw [reread, rereadList_eq ih]
  | unary _ ih => rw [reread, ih]
  | binary hleft hright ihleft ihright =>
    rw [reread_binary (hleft.binary hright).isSigned_eq_false, ihleft, ihright]
  | intrinsic _ ih => rw [reread, rereadList_eq ih]
  | call _ _ ih => rw [reread, rereadList_eq ih]

end Expr
end LineBasic
