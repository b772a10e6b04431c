import LineBasic.Proofs.Expr.EqualKeys
import LineBasic.Proofs.Expr.ReducedNames
import LineBasic.Proofs.Grammar.RoundTrip

/-!
# The text of a reduced expression

Reduction folds literals, and what it leaves need not be what the grammar can read: a number may be
below zero and a string may have a quotation mark in it. Where the text shows all literals and names
(`Expr.IsShown`), it is read to its end. The expression that is read has the same values, if no base
of a power is below zero (`expression_canonical_reduce`). Everywhere else a number below zero needs
no parentheses, but as a base without them it leaves its sign to the power
(`exists_not_expression_canonical_reduce`).
-/

namespace LineBasic

open Grammar Arithmetic LineBasic.Parser

namespace Expr

/-! ## What texts show -/

section

variable {ν : Type} [Arithmetic ν] {e : Expr ν}

/-- The text shows what the literal is: infinity has none, and a quotation mark ends a string. -/
def ShowsLiteral : Expr ν → Prop
  | .number value _ => Arithmetic.isFinite value = true
  | .string body => '"' ∉ body.toList
  | _ => True

instance : (e : Expr ν) → Decidable e.ShowsLiteral
  | .number value _ => inferInstanceAs (Decidable (Arithmetic.isFinite value = true))
  | .string body => inferInstanceAs (Decidable ('"' ∉ body.toList))
  | .scalar _ | .element .. | .unary .. | .binary .. | .intrinsic .. | .call .. => .isTrue trivial

/-- The text of the expression shows its literals and names. -/
structure IsShown (e : Expr ν) : Prop where
  literals : ∀ t ∈ e.subterms, t.ShowsLiteral
  /-- No variable is taken for the operator `NOT`. -/
  clear : e.clearOfNot 1 = true

instance (e : Expr ν) : Decidable e.IsShown :=
  decidable_of_iff ((∀ t ∈ e.subterms, t.ShowsLiteral) ∧ e.clearOfNot 1 = true)
    ⟨fun h => ⟨h.1, h.2⟩, fun h => ⟨h.literals, h.clear⟩⟩

/-- A number below zero, which is written with a minus sign. -/
def isNegative (e : Expr ν) : Bool := e.number?.any (Arithmetic.less · Arithmetic.zero)

/-- The expression is no power of a number below zero. -/
def HasUnsignedBase : Expr ν → Prop
  | .binary op base _ => op = .pow → base.isNegative = false
  | _ => True

instance : (e : Expr ν) → Decidable e.HasUnsignedBase
  | .binary op base _ => inferInstanceAs (Decidable (op = .pow → base.isNegative = false))
  | .number .. | .string _ | .scalar _ | .element .. | .unary .. | .intrinsic .. | .call .. =>
    .isTrue trivial

end

section

variable {e : Expr Float}

theorem isPrinted_ofNumber {x : Float} (h : Arithmetic.isFinite x = true) :
    (ofNumber x).IsPrinted := by
  have hwritten := Number.writtenFinite_text h
  generalize htext : (Number.text x).toList = w at hwritten
  cases hwritten with
  | unsigned _ hspells => exact .number (htext ▸ isNumberText_of_spells hspells)
  | signed _ hspells => exact .signed htext (isNumberText_of_spells hspells)

theorem isSigned_ofNumber {x : Float} (h : Arithmetic.isFinite x = true)
    (hx : Arithmetic.less x Arithmetic.zero = false) : (ofNumber x).isSigned = false := by
  have hwritten := Number.writtenFinite_text h
  generalize htext : (Number.text x).toList = w at hwritten
  cases hwritten with
  | unsigned _ hspells => exact isSigned_of_isNumberText (htext ▸ isNumberText_of_spells hspells) x
  | signed hless => cases hx.symm.trans hless

/-- The text of what is not below zero begins without a sign. -/
theorem isSigned_canonically : ∀ {e : Expr Float}, (∀ t ∈ e.subterms, t.ShowsLiteral) →
    (∀ t ∈ e.subterms, t.HasUnsignedBase) → e.isNegative = false → e.canonically.isSigned = false
  | .number x text, hliterals, _, hself =>
    isSigned_ofNumber (hliterals _ (self_mem_subterms (.number x text))) hself
  | .binary op base exponent, hliterals, hbases, _ => by
    obtain ⟨-, hliterals⟩ := forall_mem_subterms_iff.1 hliterals
    obtain ⟨hbase, hbases⟩ := forall_mem_subterms_iff.1 hbases
    have hmem : base ∈ (Expr.binary op base exponent).children := List.mem_pair.2 (.inl rfl)
    rw [canonically, Bool.eq_false_iff, Ne, isSigned_binary_iff]
    rintro ⟨hpow, hsigned⟩
    have hplain := isSigned_canonically (hliterals base hmem) (hbases base hmem) (hbase hpow)
    exact Bool.false_ne_true (hplain.symm.trans hsigned)
  | .string _, _, _, _ | .scalar _, _, _, _ | .element .., _, _, _ | .unary .., _, _, _
  | .intrinsic .., _, _, _ | .call .., _, _, _ => rfl

theorem isPrinted_canonically (hliterals : ∀ t ∈ e.subterms, t.ShowsLiteral)
    (hnames : e.NamesRead) : e.canonically.IsPrinted := by
  induction e using of_children with
  | step e ih =>
    obtain ⟨hself, hparts⟩ := forall_mem_subterms_iff.1 hliterals
    obtain ⟨hname, hchildren⟩ := namesRead_iff.1 hnames
    have printed (c : Expr Float) (hc : c ∈ e.children) : c.canonically.IsPrinted :=
      ih c hc (hparts c hc) (hchildren c hc)
    have args (h : ∀ c ∈ e.children, c.canonically.IsPrinted) :
        ∀ d ∈ canonicallyList e.children, d.IsPrinted := by
      rwa [canonicallyList_eq_map, List.forall_mem_map]
    cases e with
    | number x text => exact isPrinted_ofNumber hself
    | string body => exact .string hself
    | scalar name => exact .scalar hname.key
    | element name subscripts =>
      refine .element hname.1.key ?_ (args printed)
      rw [canonicallyList_eq_map, Ne, List.map_eq_nil_iff]
      exact hname.2
    | unary op operand => exact .unary (printed operand (List.mem_singleton.2 rfl))
    | binary op left right =>
      exact .binary (printed left (List.mem_pair.2 (.inl rfl)))
        (printed right (List.mem_pair.2 (.inr rfl)))
    | intrinsic f args' => exact .intrinsic (args printed)
    | call name args' => exact .call hname.key (args printed)

/-- The canonical text is read to its end, its signs as operators. -/
theorem IsShown.expression_canonical (h : e.IsShown) (hnames : e.NamesRead) :
    expression e.canonical.toList = .accepted e.canonically.reread [] := by
  have hread := expression_printed (isPrinted_canonically h.literals hnames)
    ((e.clearOfNot_canonically 1).trans h.clear)
  rwa [e.source_canonically] at hread

end

/-! ## Values of what is read -/

section

variable {library : Library} {env : Environment (Machine library)}
  {R : Value (Machine library) → Value (Machine library) → Prop}

/-- What a finite number is read as has its value, but for the sign of zero. -/
theorem exists_valueIn_reread (env : Environment (Machine library)) {x : Float}
    (h : Arithmetic.isFinite x = true) :
    ∃ y : Float, valueIn (ν := Machine library) env (ofNumber x).reread = some (.number y) ∧
      Arithmetic.Alike y x ∧ (Number.parts x ≠ .zero .negative → y = x) := by
  have hwritten := Number.writtenFinite_text h
  generalize htext : (Number.text x).toList = w at hwritten
  cases hwritten with
  | unsigned _ hspells halike hexact =>
    have hnumber : IsNumberText (Number.text x).toList x.abs :=
      htext ▸ isNumberText_of_spells hspells
    have hread : (ofNumber x).reread = .number x.abs (Number.text x) := reread_number hnumber x
    rw [hread]
    exact ⟨x.abs, rfl, halike.symm, fun hx => (hexact hx).symm⟩
  | signed _ _ hx =>
    have hread : (ofNumber x).reread = .unary .neg (.number x.abs _) :=
      (reread_of_isSigned (isSigned_of_sign htext x)).trans
        (congrArg _ (behindSign_number htext x))
    rw [hread]
    exact ⟨-x.abs, rfl, .inl hx.symm, fun _ => hx.symm⟩

/-- Numbers are read as related ones, and no base of a power is read with a sign. -/
structure ReadsRelated (env : Environment (Machine library))
    (R : Value (Machine library) → Value (Machine library) → Prop)
    (es : List (Expr (Machine library))) : Prop where
  numbers (x : Float) (text : String) : .number x text ∈ es →
    Option.Rel R (valueIn (ν := Machine library) env (ofNumber x).reread) (some (.number x))
  bases (base exponent : Expr (Machine library)) : .binary .pow base exponent ∈ es →
    isSigned (canonically (ν := Float) base) = false

theorem ReadsRelated.mono {ds es : List (Expr (Machine library))} (h : ReadsRelated env R es)
    (hsub : ds ⊆ es) : ReadsRelated env R ds where
  numbers x text hx := h.numbers x text (hsub hx)
  bases base exponent hbase := h.bases base exponent (hsub hbase)

theorem ReadsRelated.tail {e : Expr (Machine library)} {es : List (Expr (Machine library))}
    (h : ReadsRelated env R (e :: es)) : ReadsRelated env R es :=
  h.mono (List.subset_cons_self e es)

mutual

/-- What is read has values that are related to those of the expression, if its numbers are. -/
theorem rel_reread (hR : env.Keeps R) : ∀ {e : Expr (Machine library)},
    ReadsRelated env R e.subterms →
      Option.Rel R (valueIn (ν := Machine library) env (canonically (ν := Float) e).reread)
        (e.valueIn env)
  | .number x text, h => h.numbers x text (List.mem_singleton.2 rfl)
  | .string s, _ => .some (hR.refl _)
  | .scalar name, _ => Environment.rel_of_eq hR.refl (congrArg env.scalar name.key_key)
  | .element name subscripts, h => by
    change Option.Rel R (Option.bind _ (env.at? (⟨name.key⟩ : Name).key)) (Option.bind _ _)
    rw [name.key_key]
    exact bind_rel (rel_rereadList hR h.tail) fun _ _ => hR.at? _
  | .unary op operand, h => bind_rel (rel_reread hR h.tail) fun _ _ => hR.valueOf? op
  | .binary op left right, h => by
    have hplain : isSigned (.binary op (canonically (ν := Float) left)
        (canonically (ν := Float) right)) = false := by
      rw [Bool.eq_false_iff, Ne, isSigned_binary_iff]
      rintro ⟨rfl, hsigned⟩
      exact Bool.false_ne_true ((h.bases left right List.mem_cons_self).symm.trans hsigned)
    have hleft := rel_reread hR (h.tail.mono (List.subset_append_left _ _))
    have hright := rel_reread hR (h.tail.mono (List.subset_append_right _ _))
    change Option.Rel R (valueIn (ν := Machine library) env (reread (.binary op
      (canonically (ν := Float) left) (canonically (ν := Float) right)))) _
    rw [reread_binary hplain]
    exact bind_rel hleft fun _ _ hv => bind_rel hright fun _ _ hw => hR.result? op hv hw
  | .intrinsic f args, h => bind_rel (rel_rereadList hR h.tail) fun _ _ => hR.intrinsic? f
  | .call name args, h => by
    change Option.Rel R (Option.bind _ (env.function (⟨name.key⟩ : Name).key)) (Option.bind _ _)
    rw [name.key_key]
    exact bind_rel (rel_rereadList hR h.tail) fun _ _ => hR.function _

theorem rel_rereadList (hR : env.Keeps R) : ∀ {es : List (Expr (Machine library))},
    ReadsRelated env R (subtermsOfList es) →
      Option.Rel (List.Forall₂ R)
        (valuesIn (ν := Machine library) env (rereadList (canonicallyList (ν := Float) es)))
        (valuesIn env es)
  | [], _ => .some .nil
  | e :: rest, h => by
    have hfirst := rel_reread hR (h.mono (List.subset_append_left _ _))
    have hrest := rel_rereadList hR (h.mono (List.subset_append_right _ _))
    exact bind_rel hfirst fun _ _ hv => map_rel hrest fun _ _ hvs => .cons hv hvs

end

/-! ## Any library -/

/-- The library has no part in texts. -/
theorem canonical_machine (e : Expr (Machine library)) :
    e.canonical = canonical (ν := Float) e := by
  delta canonical write
  rfl

end

end Expr

/-- The text of a reduced expression that shows its literals and names is read to its end. What is
read has the values of the reduced expression if no base is below zero; where the expression has a
zero with a minus sign, up to the sign of zero. -/
theorem expression_canonical_reduce (library : Library) (boolean : Bool) {s rest : List Char}
    {e : Expr (Machine library)} (h : expression s = .accepted e rest)
    (hshown : (e.reduce boolean).1.IsShown) :
    ∃ d : Expr (Machine library),
      expression (e.reduce boolean).1.canonical.toList = .accepted d [] ∧
        ((∀ t ∈ (e.reduce boolean).1.subterms, t.HasUnsignedBase) →
          ∀ env : Environment (Machine library),
            (library.IgnoresZeroSigns → env.IgnoresZeroSigns →
              AlikeResults (d.valueIn env) ((e.reduce boolean).1.valueIn env)) ∧
            ((e.reduce boolean).1.HasNoNegativeZero →
              d.valueIn env = (e.reduce boolean).1.valueIn env)) := by
  have hnames : Expr.NamesRead (ν := Machine library) e := (isSpelled_of_expression h).namesRead
  have hreduced := hnames.reduce boolean
  generalize (e.reduce boolean).1 = r at hshown hreduced ⊢
  have hfloat : Expr.IsShown (ν := Float) r := ⟨fun t ht => hshown.literals t ht, hshown.clear⟩
  have hread := hfloat.expression_canonical hreduced
  rw [← Expr.canonical_machine] at hread
  refine ⟨_, hread, fun hunsigned env => ?_⟩
  have hbases (base exponent : Expr (Machine library))
      (hmem : .binary .pow base exponent ∈ r.subterms) :
      Expr.isSigned (Expr.canonically (ν := Float) base) = false := by
    have hsub (t : Expr Float) (ht : t ∈ base.subterms) : t ∈ r.subterms :=
      Expr.mem_subterms_trans
        (Expr.mem_subterms_trans ht (by simp [Expr.subterms, Expr.self_mem_subterms])) hmem
    exact Expr.isSigned_canonically (fun t ht => hfloat.literals t (hsub t ht))
      (fun t ht => hunsigned t (hsub t ht)) (hunsigned _ hmem rfl)
  constructor
  · intro hlibrary henv
    have := hlibrary.zeroSigns
    refine Expr.rel_reread henv.keeps ⟨fun x text hx => ?_, hbases⟩
    obtain ⟨y, hy, halike, -⟩ := Expr.exists_valueIn_reread env (hshown.literals _ hx)
    rw [hy]
    exact .some (.number halike)
  · intro hzero
    refine Environment.eq_of_rel (Expr.rel_reread env.keeps_eq ⟨fun x text hx => ?_, hbases⟩)
    obtain ⟨y, hy, -, hexact⟩ := Expr.exists_valueIn_reread env (hshown.literals _ hx)
    rw [hy, hexact (hzero x text hx)]
    exact .some rfl

/-- Factors below zero, one of them an exponent. -/
theorem exists_expression_canonical_reduce :
    ∃ (e : Expr (Machine squaringLibrary)) (rest : List Char),
      expression "(-2)*x^(1-3)".toList = .accepted e rest ∧ (e.reduce true).1.IsShown ∧
        (∀ t ∈ (e.reduce true).1.subterms, t.HasUnsignedBase) ∧
        ∃ d : Expr (Machine squaringLibrary),
          expression "-2 * X ^ -2".toList = .accepted d [] ∧
            ∀ env : Environment (Machine squaringLibrary), env.IgnoresZeroSigns →
              AlikeResults (d.valueIn env) ((e.reduce true).1.valueIn env) := by
  have found : acceptsSuch expression (fun e =>
      decide (Expr.reduce (ν := Machine squaringLibrary) true e).1.IsShown &&
        (decide (∀ t ∈ (Expr.reduce (ν := Machine squaringLibrary) true e).1.subterms,
          t.HasUnsignedBase) &&
        (Expr.reduce (ν := Machine squaringLibrary) true e).1.canonical == "-2 * X ^ -2"))
      "(-2)*x^(1-3)".toList = true := by
    decide +kernel
  obtain ⟨e, rest, haccepted, htest⟩ := exists_of_acceptsSuch found
  simp only [Bool.and_eq_true, beq_iff_eq, decide_eq_true_eq] at htest
  obtain ⟨hshown, hunsigned, htext⟩ := htest
  obtain ⟨d, hread, hvalues⟩ := expression_canonical_reduce squaringLibrary true haccepted hshown
  rw [htext] at hread
  exact ⟨e, rest, haccepted, hshown, hunsigned, d, hread, fun env henv =>
    (hvalues hunsigned env).1 squaringLibrary_ignoresZeroSigns henv⟩

/-- The value where all variables are two, a number. -/
def valueAtTwo (e : Expr (Machine squaringLibrary)) : Option Float :=
  (Expr.evaluate? (ν := Machine squaringLibrary) (fun _ => some (2 : Float)) e).bind Value.number?

/-- The sign of the base is read as the sign of the power. -/
theorem exists_not_expression_canonical_reduce :
    ∃ (e d : Expr (Machine squaringLibrary)) (rest : List Char),
      expression "(-2)^X".toList = .accepted e rest ∧ expression "-2 ^ X".toList = .accepted d [] ∧
        valueAtTwo d = some (-4) ∧ ∀ boolean, (e.reduce boolean).1.canonical = "-2 ^ X" ∧
          valueAtTwo (e.reduce boolean).1 = some 4 := by
  have found : acceptsSuch expression (fun e => [false, true].all fun boolean =>
      (Expr.reduce (ν := Machine squaringLibrary) boolean e).1.canonical == "-2 ^ X" &&
        decide (valueAtTwo (Expr.reduce (ν := Machine squaringLibrary) boolean e).1 = some 4))
      "(-2)^X".toList = true := by
    decide +kernel
  have reread : acceptsSuch expression (fun d => d.source == "-2 ^ X" &&
      (d.clearOfNot 1 && decide (valueAtTwo d = some (-4)))) "-2 ^ X".toList = true := by
    decide +kernel
  obtain ⟨e, rest, haccepted, htest⟩ := exists_of_acceptsSuch found
  obtain ⟨d, more, hread, hvalue⟩ := exists_of_acceptsSuch reread
  simp only [Bool.and_eq_true, beq_iff_eq, decide_eq_true_eq] at hvalue
  obtain ⟨hsource, hclear, hvalue⟩ := hvalue
  have hwhole := expression_source (isSpelled_of_expression hread) hclear
  rw [hsource] at hwhole
  refine ⟨e, d, rest, haccepted, hwhole, hvalue, fun boolean => ?_⟩
  have hboth := List.all_eq_true.1 htest boolean (by cases boolean <;> decide)
  simpa only [Bool.and_eq_true, beq_iff_eq, decide_eq_true_eq] using hboth

end LineBasic
