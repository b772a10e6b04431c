import LineBasic.Proofs.Expr.ImpureCalls
import LineBasic.Proofs.Expr.Runs
import LineBasic.Proofs.Expr.Value

/-!
# Normal forms of reduction

A reduced expression should be a normal form: a second reduction leaves it and reports candidates
for shifts at most. Reduction is one pass from the operands up, and some of its steps build an inner
expression that the pass does not come back to (`Expr.Exposed`): an operator in front of an operand
that is reduced to the same operator, an operand that is multiplied with itself, and a negated
connective. The reduced expression is a normal form exactly if it shows none of these
(`Expr.isNormal_reduce_iff`). The proof compares normal forms with expressions that have no redex
(`Expr.isNormal_iff`), and follows the redexes that the steps leave (`Expr.ExposesRedexes`).
-/

namespace LineBasic

/-- The expression stays, and could be computed by a shift. -/
def Identity.isShift : Identity → Bool
  | multiplyToShift | divideToShift => true
  | _ => false

namespace Expr

variable {ν : Type} [Arithmetic ν] {boolean : Bool} {op : UnaryOp} {e x l r : Expr ν}

/-- A second reduction gives the same expression and reports nothing but shifts. -/
structure IsNormal (boolean : Bool) (e : Expr ν) : Prop where
  reduce_eq : (e.reduce boolean).1 = e
  isShift : ∀ report ∈ (e.reduce boolean).2, report.identity.isShift

/-- The binary expression has a value of its own, or a rule applies to it. -/
def IsReducible (boolean : Bool) (op : BinaryOp) (l r : Expr ν) : Prop :=
  (Expr.binary op l r).constant?.isSome ∨
    ∃ result identity, binaryStep boolean op l r = .replace result identity

/-- What steps of the reduction may leave for another one. -/
inductive Exposed (boolean : Bool) : Expr ν → Prop
  /-- Two equal operators, where the operand of one is reduced to the other. -/
  | pair (op : UnaryOp) (x : Expr ν) : Exposed boolean (.unary op (.unary op x))
  /-- A double that can be folded: a product of a string with two is a sum of strings. -/
  | sum {x : Expr ν} : IsReducible boolean .add x x → Exposed boolean (.binary .add x x)
  /-- A part of a power that can be folded, although the power has no value. -/
  | product {x : Expr ν} {n : Nat} : 0 < n → IsReducible boolean .mul (x.product n) x →
    Exposed boolean (.binary .mul (x.product n) x)
  /-- A connective whose operands have been negated. -/
  | connective {op : BinaryOp} {l r : Expr ν} : boolean = true → op = .and ∨ op = .or →
    IsReducible boolean op l r → Exposed boolean (.binary op l r)

/-- The reduction changes the expression itself, its operands being normal. -/
inductive Redex (boolean : Bool) : Expr ν → Prop
  | pair (op : UnaryOp) (x : Expr ν) : Redex boolean (.unary op (.unary op x))
  | unary {op : UnaryOp} {x : Expr ν} : (reduceUnary boolean op x).1 ≠ .unary op x →
    Redex boolean (.unary op x)
  | binary {op : BinaryOp} {l r : Expr ν} : IsReducible boolean op l r →
    Redex boolean (.binary op l r)
  | intrinsic {f : Intrinsic} {args : List (Expr ν)} : (Expr.intrinsic f args).constant?.isSome →
    Redex boolean (.intrinsic f args)

theorem Exposed.redex (h : Exposed boolean e) : Redex boolean e := by
  cases h with
  | pair op x => exact .pair op x
  | sum h => exact .binary h
  | product _ h => exact .binary h
  | connective _ _ h => exact .binary h

/-! ## Normal forms have no redex -/

theorem isShift_of_replace {op : BinaryOp} {result : Expr ν} {identity : Identity}
    (h : binaryStep boolean op l r = .replace result identity) : identity.isShift = false := by
  cases op <;> simp only [binaryStep] at h <;> (repeat' split at h) <;> cases h <;> rfl

theorem isShift_of_remark {op : BinaryOp} {text : String} {identity : Identity}
    (h : binaryStep boolean op l r = .remark text identity) : identity.isShift := by
  cases op <;> simp only [binaryStep] at h <;> (repeat' split at h) <;> cases h <;> rfl

theorem toExpr_ne_binary (v : Value ν) (op : BinaryOp) : v.toExpr ≠ .binary op l r := by
  cases v <;> exact nofun

/-- Folding and rules are the reductions of a binary expression that change it. -/
theorem reduceBinary_iff {op : BinaryOp} {l' r' : Expr ν} :
    ((reduceBinary boolean op l' r').1 = .binary op l r ∧
        ∀ report ∈ (reduceBinary boolean op l' r').2, report.identity.isShift) ↔
      l' = l ∧ r' = r ∧ ¬ IsReducible boolean op l' r' := by
  rw [reduceBinary, IsReducible]
  split
  next v hv =>
    rw [hv]
    exact ⟨fun h => absurd h.1 (toExpr_ne_binary v op), fun h => absurd (.inl rfl) h.2.2⟩
  next hnone =>
    rw [hnone]
    split
    next hstep =>
      rw [hstep]
      simp
    next text identity hstep =>
      rw [hstep]
      simp [isShift_of_remark hstep]
    next result identity hstep =>
      rw [hstep]
      simp [isShift_of_replace hstep]

theorem eq_of_negate_eq (h : (negate x).1 = .unary .neg e) : x = e ∧ (negate x).2 = [] := by
  rw [negate] at h ⊢
  split at h
  next => split at h <;> cases h
  next => exact ⟨(Expr.unary.inj h).2, rfl⟩

theorem eq_of_complement_eq (h : (complement boolean x).1 = .unary .not e) :
    x = e ∧ (complement boolean x).2 = [] := by
  revert h
  fun_cases complement boolean x with
  | case1 | case2 => exact nofun
  | case3 _ _ _ n =>
    cases UnaryOp.not.result? n with
    | none => exact fun h => ⟨(Expr.unary.inj h).2, rfl⟩
    | some m => exact nofun
  | case4 | case5 | case6 => exact nofun
  | case7 | case8 => exact fun h => ⟨(Expr.unary.inj h).2, rfl⟩

/-- An operator that stays in front of its operand does so without a report. -/
theorem eq_of_reduceUnary_eq (h : (reduceUnary boolean op x).1 = .unary op e) :
    x = e ∧ (reduceUnary boolean op x).2 = [] := by
  cases op with
  | neg => exact eq_of_negate_eq h
  | not => exact eq_of_complement_eq h

theorem isNormal_unary_iff :
    (Expr.unary op x).IsNormal boolean ↔ x.IsNormal boolean ∧ ¬ Redex boolean (.unary op x) := by
  by_cases hpair : ∃ y, x = .unary op y
  · obtain ⟨y, rfl⟩ := hpair
    refine ⟨fun h => ?_, fun h => absurd (.pair op y) h.2⟩
    obtain ⟨report, hreport, hidentity⟩ := exists_pairReport boolean op y
    have hshift := h.isShift report hreport
    rcases hidentity with hidentity | hidentity <;> rw [hidentity] at hshift <;> cases hshift
  · have hreduce := reduce_unary boolean (not_exists.1 hpair)
    constructor
    · rintro ⟨heq, hshift⟩
      rw [hreduce] at heq hshift
      have hx := (eq_of_reduceUnary_eq heq).1
      refine ⟨⟨hx, fun report h => hshift report (List.mem_append_left _ h)⟩, fun hredex => ?_⟩
      rw [hx] at heq
      cases hredex with
      | pair _ y => exact hpair ⟨y, rfl⟩
      | unary hne => exact hne heq
    · rintro ⟨hx, hredex⟩
      have hkeep : (reduceUnary boolean op x).1 = .unary op x := by
        by_contra hne
        exact hredex (.unary hne)
      constructor
      · rw [hreduce, hx.reduce_eq]
        exact hkeep
      · intro report hreport
        rw [hreduce, hx.reduce_eq, (eq_of_reduceUnary_eq hkeep).2, List.append_nil] at hreport
        exact hx.isShift report hreport

theorem isNormal_binary_iff {op : BinaryOp} :
    (Expr.binary op l r).IsNormal boolean ↔
      l.IsNormal boolean ∧ r.IsNormal boolean ∧ ¬ Redex boolean (.binary op l r) := by
  have hreduce : (Expr.binary op l r).reduce boolean =
      ((reduceBinary boolean op (l.reduce boolean).1 (r.reduce boolean).1).1,
        (l.reduce boolean).2 ++ (r.reduce boolean).2 ++
          (reduceBinary boolean op (l.reduce boolean).1 (r.reduce boolean).1).2) := by
    rw [reduce, run]
    rfl
  constructor
  · rintro ⟨heq, hshift⟩
    rw [hreduce] at heq hshift
    simp only [List.mem_append] at hshift
    obtain ⟨hl, hr, hreducible⟩ :=
      reduceBinary_iff.1 ⟨heq, fun report h => hshift report (.inr h)⟩
    rw [hl, hr] at hreducible
    refine ⟨⟨hl, fun report h => hshift report (.inl (.inl h))⟩,
      ⟨hr, fun report h => hshift report (.inl (.inr h))⟩, fun hredex => ?_⟩
    cases hredex with
    | binary h => exact hreducible h
  · rintro ⟨hl, hr, hredex⟩
    obtain ⟨heq, hshift⟩ :=
      reduceBinary_iff.2 ⟨hl.reduce_eq, hr.reduce_eq, fun h => hredex (.binary
        (by rwa [hl.reduce_eq, hr.reduce_eq] at h))⟩
    constructor
    · rw [hreduce]
      exact heq
    · rw [hreduce]
      simp only [List.mem_append]
      rintro report ((h | h) | h)
      · exact hl.isShift report h
      · exact hr.isShift report h
      · exact hshift report h

/-- A second reduction gives the same operands and reports nothing but shifts. -/
theorem forall_isNormal_iff (es : List (Expr ν)) :
    ((reduceList boolean es).1 = es ∧
        ∀ report ∈ (reduceList boolean es).2, report.identity.isShift) ↔
      ∀ e ∈ es, e.IsNormal boolean := by
  induction es with
  | nil =>
    rw [reduceList]
    exact ⟨fun _ _ h => absurd h List.not_mem_nil, fun _ => ⟨rfl, nofun⟩⟩
  | cons e rest ih =>
    have hcons : reduceList boolean (e :: rest) =
        ((e.reduce boolean).1 :: (reduceList boolean rest).1,
          (e.reduce boolean).2 ++ (reduceList boolean rest).2) := by
      rw [reduceList]
      rfl
    rw [List.forall_mem_cons, ← ih, hcons]
    simp only [List.cons.injEq, List.mem_append]
    constructor
    · rintro ⟨⟨he, hrest⟩, hshift⟩
      exact ⟨⟨he, fun report h => hshift report (.inl h)⟩, hrest,
        fun report h => hshift report (.inr h)⟩
    · rintro ⟨he, hrest, hshift⟩
      exact ⟨⟨he.reduce_eq, hrest⟩, fun report h => h.elim (he.isShift report) (hshift report)⟩

theorem isNormal_element_iff {name : Name} {subscripts : List (Expr ν)} :
    (Expr.element name subscripts).IsNormal boolean ↔ ∀ e ∈ subscripts, e.IsNormal boolean := by
  have hreduce : (Expr.element name subscripts).reduce boolean =
      (.element name (reduceList boolean subscripts).1, (reduceList boolean subscripts).2) := by
    rw [reduce, run]
    rfl
  rw [← forall_isNormal_iff]
  constructor
  · rintro ⟨heq, hshift⟩
    rw [hreduce] at heq hshift
    exact ⟨(Expr.element.inj heq).2, hshift⟩
  · rintro ⟨heq, hshift⟩
    exact ⟨by rw [hreduce, heq], by rwa [hreduce]⟩

theorem isNormal_call_iff {name : Name} {args : List (Expr ν)} :
    (Expr.call name args).IsNormal boolean ↔ ∀ e ∈ args, e.IsNormal boolean := by
  have hreduce : (Expr.call name args).reduce boolean =
      (.call name (reduceList boolean args).1, (reduceList boolean args).2) := by
    rw [reduce, run]
    rfl
  rw [← forall_isNormal_iff]
  constructor
  · rintro ⟨heq, hshift⟩
    rw [hreduce] at heq hshift
    exact ⟨(Expr.call.inj heq).2, hshift⟩
  · rintro ⟨heq, hshift⟩
    exact ⟨by rw [hreduce, heq], by rwa [hreduce]⟩

theorem isNormal_intrinsic_iff {f : Intrinsic} {args : List (Expr ν)} :
    (Expr.intrinsic f args).IsNormal boolean ↔
      (∀ e ∈ args, e.IsNormal boolean) ∧ ¬ Redex boolean (.intrinsic f args) := by
  have hreduce : (Expr.intrinsic f args).reduce boolean =
      ((Expr.intrinsic f (reduceList boolean args).1).constant?.elim
        (.intrinsic f (reduceList boolean args).1) Value.toExpr, (reduceList boolean args).2) := by
    rw [reduce, run]
    rfl
  rw [← forall_isNormal_iff]
  constructor
  · rintro ⟨heq, hshift⟩
    rw [hreduce] at heq hshift
    cases hconstant : (Expr.intrinsic f (reduceList boolean args).1).constant? with
    | some v =>
      rw [hconstant] at heq
      cases v <;> cases heq
    | none =>
      rw [hconstant] at heq
      have hargs := (Expr.intrinsic.inj heq).2
      refine ⟨⟨hargs, hshift⟩, fun hredex => ?_⟩
      cases hredex with
      | intrinsic h =>
        rw [← hargs, hconstant] at h
        cases h
  · rintro ⟨⟨heq, hshift⟩, hredex⟩
    refine ⟨?_, by rwa [hreduce]⟩
    have hnone : (Expr.intrinsic f args).constant? = none :=
      Option.not_isSome_iff_eq_none.1 fun h => hredex (.intrinsic h)
    rw [hreduce, heq, hnone]
    rfl

/-- An expression is normal if its operands are and it is no redex. -/
theorem isNormal_iff_children (e : Expr ν) :
    e.IsNormal boolean ↔ ¬ Redex boolean e ∧ ∀ c ∈ e.children, c.IsNormal boolean := by
  cases e with
  | number | string | scalar =>
    refine ⟨fun _ => ⟨?_, ?_⟩, fun _ => ⟨?_, ?_⟩⟩
    · rintro ⟨⟩
    · rintro _ ⟨⟩
    · rw [reduce, run]
      rfl
    · rw [reduce, run]
      rintro _ ⟨⟩
  | element name subscripts =>
    rw [isNormal_element_iff]
    refine ⟨fun h => ⟨?_, h⟩, fun h => h.2⟩
    rintro ⟨⟩
  | call name args =>
    rw [isNormal_call_iff]
    refine ⟨fun h => ⟨?_, h⟩, fun h => h.2⟩
    rintro ⟨⟩
  | intrinsic f args =>
    rw [isNormal_intrinsic_iff, and_comm]
    rfl
  | unary op x =>
    rw [isNormal_unary_iff, and_comm]
    simp [children]
  | binary op l r =>
    rw [isNormal_binary_iff, ← and_assoc, and_comm]
    simp [children]

/-- Normal forms are the expressions without a redex. -/
theorem isNormal_iff (e : Expr ν) : e.IsNormal boolean ↔ ∀ t ∈ e.subterms, ¬ Redex boolean t := by
  induction e using of_children with
  | step e ih =>
    rw [isNormal_iff_children, subterms_eq, List.forall_mem_cons]
    refine and_congr_right fun _ => ?_
    simp only [mem_subtermsOfList]
    constructor
    · rintro h t ⟨c, hc, ht⟩
      exact (ih c hc).1 (h c hc) t ht
    · exact fun h c hc => (ih c hc).2 fun t ht => h t ⟨c, hc, ht⟩

/-! ## Redexes that steps leave -/

/-- Each redex of the expression has an exposed part. -/
def ExposesRedexes (boolean : Bool) (e : Expr ν) : Prop :=
  ∀ t ∈ e.subterms, Redex boolean t → ∃ d ∈ t.subterms, Exposed boolean d

theorem ExposesRedexes.of_children (hchildren : ∀ c ∈ e.children, ExposesRedexes boolean c)
    (hself : Redex boolean e → Exposed boolean e) : ExposesRedexes boolean e := by
  intro t ht hredex
  rw [subterms_eq] at ht
  rcases List.mem_cons.1 ht with rfl | ht
  · exact ⟨t, self_mem_subterms t, hself hredex⟩
  · obtain ⟨c, hc, ht⟩ := mem_subtermsOfList.1 ht
    exact hchildren c hc t ht hredex

theorem ExposesRedexes.child {c : Expr ν} (h : ExposesRedexes boolean e) (hc : c ∈ e.children) :
    ExposesRedexes boolean c := by
  intro t ht
  refine h t ?_
  rw [subterms_eq]
  exact List.mem_cons_of_mem _ (mem_subtermsOfList.2 ⟨c, hc, ht⟩)

theorem exposesRedexes_ofNumber (n : ν) : ExposesRedexes boolean (.ofNumber n) :=
  .of_children nofun nofun

theorem exposesRedexes_toExpr (v : Value ν) : ExposesRedexes boolean v.toExpr := by
  cases v with
  | number n => exact exposesRedexes_ofNumber n
  | string s => exact .of_children nofun nofun

/-- A binary expression adds a redex only where it is exposed itself. -/
theorem ExposesRedexes.binary {op : BinaryOp} (hl : ExposesRedexes boolean l)
    (hr : ExposesRedexes boolean r)
    (hself : IsReducible boolean op l r → Exposed boolean (.binary op l r)) :
    ExposesRedexes boolean (.binary op l r) := by
  refine .of_children ?_ fun hredex => ?_
  · simp only [children, List.mem_cons, List.not_mem_nil, or_false]
    rintro c (rfl | rfl)
    · exact hl
    · exact hr
  · cases hredex with
    | binary h => exact hself h

omit [Arithmetic ν] in
theorem product_succ (x : Expr ν) {n : Nat} (hn : 0 < n) :
    x.product (n + 1) = .binary .mul (x.product n) x := by
  obtain ⟨m, rfl⟩ := Nat.exists_eq_succ_of_ne_zero hn.ne'
  simp [product, List.range_succ]

theorem ExposesRedexes.product (h : ExposesRedexes boolean x) (n : Nat) :
    ExposesRedexes boolean (x.product (n + 1)) := by
  induction n with
  | zero => exact h
  | succ n ih =>
    rw [product_succ x n.succ_pos]
    exact ih.binary h (.product n.succ_pos)

/-- What a binary expression is reduced to exposes its redexes if the operands do. -/
theorem ExposesRedexes.reduceBinary (op : BinaryOp) (hl : ExposesRedexes boolean l)
    (hr : ExposesRedexes boolean r) : ExposesRedexes boolean (reduceBinary boolean op l r).1 := by
  rw [Expr.reduceBinary]
  split
  next v _ => exact exposesRedexes_toExpr v
  next hnone =>
    -- what is kept is not reducible
    have keep (hstep : ∀ result identity, binaryStep boolean op l r ≠ .replace result identity) :
        ExposesRedexes boolean (.binary op l r) := by
      refine hl.binary hr fun h => ?_
      rcases h with h | ⟨result, identity, h⟩
      · rw [hnone] at h
        cases h
      · exact absurd h (hstep result identity)
    split
    next hstep => exact keep fun _ _ h => by cases hstep.symm.trans h
    next hstep => exact keep fun _ _ h => by cases hstep.symm.trans h
    next result identity hstep =>
      have hrewritten := rewritten_of_binaryStep hstep
      cases hrewritten with
      | left => exact hl
      | right => exact hr
      | literal n => exact exposesRedexes_ofNumber _
      | twiceLeft => exact hl.binary hl .sum
      | twiceRight => exact hr.binary hr .sum
      | @power n hn =>
        obtain ⟨m, rfl⟩ : ∃ m, n = m + 1 := by
          refine Nat.exists_eq_succ_of_ne_zero ?_
          rintro rfl
          simp at hn
        exact hl.product m

/-- An operator that stays is a redex only where it stands in front of its like. -/
theorem ExposesRedexes.unary (h : ExposesRedexes boolean x)
    (hkeep : (Expr.reduceUnary boolean op x).1 = .unary op x) :
    ExposesRedexes boolean (.unary op x) := by
  refine .of_children ?_ fun hredex => ?_
  · intro c hc
    obtain rfl := List.mem_singleton.1 hc
    exact h
  · cases hredex with
    | pair op y => exact .pair op y
    | unary hne => exact absurd hkeep hne

/-- The inverted relation has a value only if the relation has one, which is a number. -/
theorem not_isReducible_inverted {op inverse : BinaryOp} (h : op.inverted? = some inverse)
    (hnone : (Expr.binary op l r).constantNumber? = none) : ¬ IsReducible boolean inverse l r := by
  have relation {a b v : Value ν} (hv : inverse.result? a b = some v) :
      ∃ n, op.result? a b = some (.number n) := by
    cases op <;> cases h <;> cases a <;> cases b <;>
      first | exact ⟨_, rfl⟩ | exact absurd hv (by simp [BinaryOp.result?])
  rintro (hvalue | ⟨result, identity, hstep⟩)
  · obtain ⟨v, hv⟩ := Option.isSome_iff_exists.1 hvalue
    obtain ⟨a, b, ha, hb, hab⟩ := evaluate?_binary_eq_some_iff.1 hv
    obtain ⟨n, hn⟩ := relation hab
    have hconstant : (Expr.binary op l r).constant? = some (.number n) :=
      evaluate?_binary_eq_some_iff.2 ⟨a, b, ha, hb, hn⟩
    rw [constantNumber?, hconstant] at hnone
    cases hnone
  · cases op <;> cases h <;> cases hstep

/-- `NOT` in front of its operand, or pushed into it. -/
theorem ExposesRedexes.of_complement_or (h : ExposesRedexes boolean x)
    (hcases : (Expr.complement boolean x).1 = .unary .not x ∨
      ExposesRedexes boolean (Expr.complement boolean x).1) :
    ExposesRedexes boolean (Expr.complement boolean x).1 := by
  rcases hcases with hkeep | hexposes
  · rw [hkeep]
    exact h.unary hkeep
  · exact hexposes

theorem ExposesRedexes.complement_or (h : ExposesRedexes boolean x) :
    (Expr.complement boolean x).1 = .unary .not x ∨
      ExposesRedexes boolean (Expr.complement boolean x).1 := by
  revert h
  fun_induction Expr.complement boolean x with
  | case1 | case2 => exact fun _ => .inr (exposesRedexes_ofNumber _)
  | case3 _ _ _ n =>
    cases UnaryOp.not.result? n with
    | none => exact fun _ => .inl rfl
    | some m => exact fun _ => .inr (exposesRedexes_ofNumber m)
  | case4 left right _ _ ihl ihr =>
    intro h
    have hl := h.child (c := left) (by simp [children])
    have hr := h.child (c := right) (by simp [children])
    exact .inr ((hl.of_complement_or (ihl hl)).binary (hr.of_complement_or (ihr hr))
      (.connective rfl (.inr rfl)))
  | case5 left right _ _ ihl ihr =>
    intro h
    have hl := h.child (c := left) (by simp [children])
    have hr := h.child (c := right) (by simp [children])
    exact .inr ((hl.of_complement_or (ihl hl)).binary (hr.of_complement_or (ihr hr))
      (.connective rfl (.inl rfl)))
  | case6 op left right _ _ inverse hinverse _ _ hnone =>
    intro h
    have hl := h.child (c := left) (by simp [children])
    have hr := h.child (c := right) (by simp [children])
    exact .inr (hl.binary hr fun hreducible =>
      absurd hreducible (not_isReducible_inverted hinverse hnone))
  | case7 | case8 => exact fun _ => .inl rfl

theorem ExposesRedexes.reduceUnary (op : UnaryOp) (h : ExposesRedexes boolean x) :
    ExposesRedexes boolean (Expr.reduceUnary boolean op x).1 := by
  cases op with
  | neg =>
    cases hconstant : x.constantNumber? with
    | none =>
      have hkeep : (negate x).1 = .unary .neg x := by rw [negate, hconstant]
      exact hkeep ▸ h.unary hkeep
    | some n =>
      rw [Expr.reduceUnary, negate, hconstant]
      dsimp only
      split <;> exact exposesRedexes_ofNumber _
  | not => exact h.of_complement_or h.complement_or

theorem exposesRedexes_of_forall₂ {es reduced : List (Expr ν)}
    (h : List.Forall₂ (fun _ r => ExposesRedexes boolean r) es reduced) :
    ∀ c ∈ reduced, ExposesRedexes boolean c :=
  forall_mem_of_forall₂ (P := fun _ => True) (h.imp fun _ _ hr _ => hr) fun _ _ => trivial

theorem stepsEnsure_exposesRedexes (boolean : Bool) :
    StepsEnsure boolean fun _ r : Expr ν => ExposesRedexes boolean r where
  trivial {e} h := by
    cases e with
    | number | string | scalar => exact .of_children nofun nofun
    | _ => cases h
  element h := .of_children (exposesRedexes_of_forall₂ h) nofun
  call h := .of_children (exposesRedexes_of_forall₂ h) nofun
  intrinsic {f args reduced} h := by
    cases hconstant : (Expr.intrinsic f reduced).constant? with
    | some v => exact exposesRedexes_toExpr v
    | none =>
      refine .of_children (exposesRedexes_of_forall₂ h) fun hredex => ?_
      cases hredex with
      | intrinsic h =>
        rw [hconstant] at h
        cases h
  cancel h := h
  unary {op _ _} h := h.reduceUnary op
  binary {op _ _ _ _} hl hr := hl.reduceBinary op hr

/-- A reduced expression is a normal form exactly if none of its parts has been left for a second
reduction. -/
theorem isNormal_reduce_iff (boolean : Bool) (e : Expr ν) :
    (e.reduce boolean).1.IsNormal boolean ↔
      ∀ t ∈ (e.reduce boolean).1.subterms, ¬ Exposed boolean t := by
  rw [isNormal_iff]
  constructor
  · exact fun h t ht hexposed => h t ht hexposed.redex
  · intro h t ht hredex
    have hexposes : ExposesRedexes boolean (e.reduce boolean).1 :=
      (stepsEnsure_exposesRedexes boolean).reduce e
    obtain ⟨d, hd, hexposed⟩ := hexposes t ht hredex
    exact h d (mem_subterms_trans hd ht) hexposed

theorem not_isNormal_pair (boolean : Bool) (op : UnaryOp) (x : Expr ν) :
    ¬ (Expr.unary op (.unary op x)).IsNormal boolean := fun h =>
  (isNormal_iff _).1 h _ (self_mem_subterms _) (.pair op x)

/-- `-(-A + 0)`. -/
def negatedSum : Expr Float :=
  .unary .neg (.binary .add (.unary .neg (.scalar ⟨"A"⟩)) (.number 0 "0"))

theorem reduce_negatedSum (boolean : Bool) :
    (negatedSum.reduce boolean).1 = .unary .neg (.unary .neg (.scalar ⟨"A"⟩)) := by
  cases boolean <;> rfl

/-- The sum is reduced to its first operand, which leaves two operators in a row. -/
theorem not_isNormal_reduce_negatedSum :
    ¬ (negatedSum.reduce false).1.IsNormal false ∧ ¬ (negatedSum.reduce true).1.IsNormal true := by
  rw [reduce_negatedSum, reduce_negatedSum]
  exact ⟨not_isNormal_pair false .neg _, not_isNormal_pair true .neg _⟩

end Expr
end LineBasic
