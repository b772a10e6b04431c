import LineBasic.Proofs.Decimal.Writing
import LineBasic.Proofs.Expr.Environment
import LineBasic.Proofs.Expr.Subterms

/-!
# Equal keys

Expressions with the same key have the same value in every environment in which the first of them
joins no strings (`Expr.valueIn_eq_of_key_eq`). The key puts the operands of `+` into a fixed order,
which does not change a sum, but the string that two strings are joined to
(`Expr.key_joined`).
-/

namespace LineBasic

open Arithmetic

/-! ## Commutative operators -/

theorem Number.same_comm (x y : Float) : same x y = same y x := by
  rw [Bool.eq_iff_iff, same_iff, same_iff]
  exact ⟨fun ⟨hx, hy, h⟩ => ⟨hy, hx, h.symm⟩, fun ⟨hy, hx, h⟩ => ⟨hx, hy, h.symm⟩⟩

instance (library : Library) : Commutes (Machine library) where
  add_comm := Number.sum_comm
  mul_comm := Number.product_comm
  same_comm := Number.same_comm

instance (library : Library) : NumeralTexts (Machine library) where
  text_cases := NumeralTexts.text_cases (ν := Float)

/-- Only joined strings depend on the order of the operands. -/
theorem BinaryOp.result?_comm {ν : Type} [Arithmetic ν] [Commutes ν] {op : BinaryOp}
    (hop : op.isCommutative) {v w : Value ν}
    (hjoin : op = .add → ∀ s t, v = .string s → w ≠ .string t) : op.result? v w = op.result? w v := by
  cases v with
  | number a =>
    cases w with
    | number b => exact BinaryOp.applyNumbers?_comm hop a b
    | string t => rfl
  | string s =>
    cases w with
    | number b => rfl
    | string t =>
      have hadd : op ≠ .add := fun h => hjoin h s t rfl rfl
      unfold result? applyStrings?
      cases op <;> first | rfl | exact absurd rfl hadd | cases hop
      all_goals
        dsimp only [accepts]
        rw [Bool.beq_comm]

namespace Expr

variable {ν : Type} [Arithmetic ν] {env : Environment ν} {R : Value ν → Value ν → Prop}
  {d e : Expr ν}

/-- One of the expressions joins two strings. -/
def JoinsStringsIn (env : Environment ν) (es : List (Expr ν)) : Prop :=
  ∃ left right s t, .binary .add left right ∈ es ∧ left.valueIn env = some (.string s) ∧
    right.valueIn env = some (.string t)

/-- Some part of the expression joins two strings. -/
def JoinsStrings (e : Expr ν) (env : Environment ν) : Prop := JoinsStringsIn env e.subterms

/-- Numbers with the same text are related, and no strings are joined. -/
structure Comparable (env : Environment ν) (R : Value ν → Value ν → Prop) (ds es : List (Expr ν)) :
    Prop where
  numbers : ∀ a s b t, .number a s ∈ ds → .number b t ∈ es → text a = text b →
    R (.number a) (.number b)
  not_joins : ¬ JoinsStringsIn env ds

theorem Comparable.mono {ds es ds' es' : List (Expr ν)} (h : Comparable env R ds es)
    (hds : ds' ⊆ ds) (hes : es' ⊆ es) : Comparable env R ds' es' where
  numbers a s b t ha hb := h.numbers a s b t (hds ha) (hes hb)
  not_joins := by
    rintro ⟨left, right, s, t, hmem, hrest⟩
    exact h.not_joins ⟨left, right, s, t, hds hmem, hrest⟩

theorem Comparable.tail {ds es : List (Expr ν)} (h : Comparable env R (d :: ds) (e :: es)) :
    Comparable env R ds es :=
  h.mono (List.subset_cons_self d ds) (List.subset_cons_self e es)

/-- The operands of an operator that joins no strings are not both strings. -/
theorem Comparable.not_strings {op : BinaryOp} {left right : Expr ν} {es : List (Expr ν)}
    {v w : Value ν} (h : Comparable env R (Expr.binary op left right).subterms es)
    (hv : left.valueIn env = some v) (hw : right.valueIn env = some w) :
    op = .add → ∀ s t, v = .string s → w ≠ .string t := by
  rintro rfl s t rfl rfl
  exact h.not_joins ⟨left, right, s, t, self_mem_subterms _, hv, hw⟩

/-! ## The order of operands -/

mutual

/-- Reordered expressions have related values if equal numbers are related. -/
theorem rel_of_reordered [Commutes ν] (hR : env.Keeps R) :
    ∀ {d e : Expr ν}, d.Reordered e → Comparable env R d.subterms e.subterms →
      Option.Rel R (d.valueIn env) (e.valueIn env)
  | _, _, .number htext, h => by
    rw [valueIn, valueIn]
    exact .some (h.numbers _ _ _ _ (self_mem_subterms _) (self_mem_subterms _) htext)
  | _, _, .string body, _ => by
    rw [valueIn]
    exact .some (hR.refl _)
  | _, _, .scalar hkey, _ => by
    rw [valueIn, valueIn, hkey]
    exact Environment.rel_of_eq hR.refl rfl
  | _, _, .element hkey hsubscripts, h => by
    rw [valueIn, valueIn, hkey]
    exact bind_rel (rel_of_reorderedList hR hsubscripts h.tail) fun vs ws => hR.at? _
  | _, _, .unary op hoperand, h => by
    rw [valueIn, valueIn]
    exact bind_rel (rel_of_reordered hR hoperand h.tail) fun v w => hR.valueOf? op
  | _, _, .binary op hleft hright, h => by
    rw [valueIn, valueIn]
    have hl := rel_of_reordered hR hleft
      (h.tail.mono (List.subset_append_left _ _) (List.subset_append_left _ _))
    have hr := rel_of_reordered hR hright
      (h.tail.mono (List.subset_append_right _ _) (List.subset_append_right _ _))
    exact bind_rel hl fun v v' hv => bind_rel hr fun w w' hw => hR.result? op hv hw
  | .binary op c d, .binary _ e f, .swapped hop hleft hright, h => by
    have hl := rel_of_reordered hR hleft
      (h.tail.mono (List.subset_append_left _ _) (List.subset_append_right _ _))
    have hr := rel_of_reordered hR hright
      (h.tail.mono (List.subset_append_right _ _) (List.subset_append_left _ _))
    have hswap : (Expr.binary op c d).valueIn env = (Expr.binary op d c).valueIn env := by
      rw [valueIn, valueIn]
      cases hv : c.valueIn env with
      | none => cases d.valueIn env <;> rfl
      | some v =>
        cases hw : d.valueIn env with
        | none => rfl
        | some w => exact op.result?_comm hop (h.not_strings hv hw)
    rw [hswap, valueIn, valueIn]
    exact bind_rel hr fun v v' hv => bind_rel hl fun w w' hw => hR.result? op hv hw
  | _, _, .intrinsic f hargs, h => by
    rw [valueIn, valueIn]
    exact bind_rel (rel_of_reorderedList hR hargs h.tail) fun vs ws => hR.intrinsic? f
  | _, _, .call hkey hargs, h => by
    rw [valueIn, valueIn, hkey]
    exact bind_rel (rel_of_reorderedList hR hargs h.tail) fun vs ws => hR.function _

theorem rel_of_reorderedList [Commutes ν] (hR : env.Keeps R) :
    ∀ {ds es : List (Expr ν)}, ReorderedList ds es →
      Comparable env R (subtermsOfList ds) (subtermsOfList es) →
      Option.Rel (List.Forall₂ R) (valuesIn env ds) (valuesIn env es)
  | _, _, .nil, _ => .some .nil
  | _, _, .cons hfirst hrest, h => by
    have hvalue := rel_of_reordered hR hfirst
      (h.mono (List.subset_append_left _ _) (List.subset_append_left _ _))
    have hvalues := rel_of_reorderedList hR hrest
      (h.mono (List.subset_append_right _ _) (List.subset_append_right _ _))
    rw [valuesIn, valuesIn]
    exact bind_rel hvalue fun v w hvw => map_rel hvalues fun vs ws hall => .cons hvw hall

end

/-! ## Numbers with the same text -/

mutual

theorem Legible.of_mem {c : Expr ν} :
    ∀ {e : Expr ν}, e.Legible → c ∈ e.subterms → c.Legible
  | .number .., h, hc | .string _, h, hc | .scalar _, h, hc => by
    obtain rfl := List.mem_singleton.1 hc
    exact h
  | .element _ subscripts, h, hc => by
    rcases List.mem_cons.1 hc with rfl | hc
    · exact h
    · rw [Legible] at h
      exact LegibleList.of_mem h.2.2 hc
  | .unary _ operand, h, hc => by
    rcases List.mem_cons.1 hc with rfl | hc
    · exact h
    · rw [Legible] at h
      exact h.of_mem hc
  | .binary _ left right, h, hc => by
    rcases List.mem_cons.1 hc with rfl | hc
    · exact h
    · rw [Legible] at h
      rcases List.mem_append.1 hc with hc | hc
      · exact h.1.of_mem hc
      · exact h.2.of_mem hc
  | .intrinsic _ args, h, hc => by
    rcases List.mem_cons.1 hc with rfl | hc
    · exact h
    · rw [Legible] at h
      exact LegibleList.of_mem h hc
  | .call _ args, h, hc => by
    rcases List.mem_cons.1 hc with rfl | hc
    · exact h
    · rw [Legible] at h
      exact LegibleList.of_mem h.2 hc

theorem LegibleList.of_mem {c : Expr ν} :
    ∀ {es : List (Expr ν)}, LegibleList es → c ∈ subtermsOfList es → c.Legible
  | e :: rest, h, hc => by
    rw [LegibleList] at h
    rcases List.mem_append.1 hc with hc | hc
    · exact h.1.of_mem hc
    · exact LegibleList.of_mem h.2 hc

end

theorem Legible.isNumeral {a : ν} {s : String} (h : (Expr.number a s).Legible) :
    IsNumeral (text a).toList := by
  rwa [Legible] at h

/-! ## Floating-point numbers -/

variable {library : Library} {d e : Expr (Machine library)}
  {env : Environment (Machine library)}

/-- No number in the expression is a zero with a minus sign, as none is that has been read. -/
def HasNoNegativeZero (e : Expr (Machine library)) : Prop :=
  ∀ (a : Float) s, .number a s ∈ e.subterms → Number.parts a ≠ .zero .negative

theorem alike_of_text_eq {a b : Float} {s t : String} (hd : d.Legible) (he : e.Legible)
    (ha : .number a s ∈ d.subterms) (hb : .number b t ∈ e.subterms)
    (h : text a = text b) : Arithmetic.Alike a b := by
  have ha := Number.isNumber_of_isNumeral (hd.of_mem ha).isNumeral
  have hb := Number.isNumber_of_isNumeral (he.of_mem hb).isNumeral
  exact Number.text_alike ha hb h

theorem comparable_alike (hd : d.Legible) (he : e.Legible) (hjoin : ¬ d.JoinsStrings env) :
    Comparable env Value.Alike d.subterms e.subterms where
  numbers _ _ _ _ ha hb h := .number (alike_of_text_eq hd he ha hb h)
  not_joins := hjoin

theorem comparable_eq (hd : d.Legible) (he : e.Legible) (hjoin : ¬ d.JoinsStrings env)
    (hdzero : d.HasNoNegativeZero) (hezero : e.HasNoNegativeZero) :
    Comparable env Eq d.subterms e.subterms where
  numbers a s b t ha hb h := by
    have eq_zero {x : Float} (hx : isZero x = true) (hsign : Number.parts x ≠ .zero .negative) :
        Number.parts x = .zero .positive := by
      obtain ⟨sign, hs⟩ := Number.isZero_iff.1 hx
      cases sign with
      | positive => exact hs
      | negative => exact absurd hs hsign
    rcases alike_of_text_eq hd he ha hb h with hab | ⟨hazero, hbzero⟩
    · exact congrArg Value.number hab
    · have hparts := (eq_zero hazero (hdzero a s ha)).trans (eq_zero hbzero (hezero b t hb)).symm
      exact congrArg Value.number (Number.parts_injective hparts)
  not_joins := hjoin

/-- Reordered expressions that join no strings have the same value; where one of them has a zero with
a minus sign, up to the sign of zero. -/
theorem Reordered.valueIn_eq (h : d.Reordered e) (hd : d.Legible) (he : e.Legible)
    (hjoin : ¬ d.JoinsStrings env) :
    (d.HasNoNegativeZero → e.HasNoNegativeZero → d.valueIn env = e.valueIn env) ∧
      (library.IgnoresZeroSigns → env.IgnoresZeroSigns →
        AlikeResults (d.valueIn env) (e.valueIn env)) := by
  constructor
  · intro hdzero hezero
    exact Environment.eq_of_rel
      (rel_of_reordered env.keeps_eq h (comparable_eq hd he hjoin hdzero hezero))
  · intro hlibrary henv
    have := hlibrary.zeroSigns
    exact rel_of_reordered henv.keeps h (comparable_alike hd he hjoin)

/-- The environment in which nothing has a value. -/
def literals (library : Library) : Environment (Machine library) := .ofScalars fun _ => none

theorem literals_ignoresZeroSigns : (literals library).IgnoresZeroSigns :=
  fun _ _ _ _ => .none

theorem constant?_eq_valueIn (e : Expr (Machine library)) : e.constant? = e.valueIn (literals library) :=
  evaluate?_eq_valueIn _ e

/-- Expressions with the same key have the same value in every environment in which they join no
strings, and so have expressions of literals. -/
theorem valueIn_eq_of_key_eq (library : Library) {d e : Expr (Machine library)} (hd : d.Legible)
    (he : e.Legible) (hkey : d.key = e.key) :
    (∀ env, ¬ d.JoinsStrings env →
      (d.HasNoNegativeZero → e.HasNoNegativeZero → d.valueIn env = e.valueIn env) ∧
        (library.IgnoresZeroSigns → env.IgnoresZeroSigns →
          AlikeResults (d.valueIn env) (e.valueIn env))) ∧
      (¬ d.JoinsStrings (literals library) →
        (d.HasNoNegativeZero → e.HasNoNegativeZero → d.constant? = e.constant?) ∧
          (library.IgnoresZeroSigns → AlikeResults d.constant? e.constant?)) := by
  have hreordered := reordered_of_key_eq hd he hkey
  refine ⟨fun env hjoin => hreordered.valueIn_eq hd he hjoin, fun hjoin => ?_⟩
  obtain ⟨hequal, halike⟩ := hreordered.valueIn_eq hd he hjoin
  rw [constant?_eq_valueIn, constant?_eq_valueIn]
  exact ⟨hequal, fun hlibrary => halike hlibrary literals_ignoresZeroSigns⟩

/-- So it is with the numbers that programs compute with. -/
theorem valueIn_float_of_key_eq {d e : Expr Float} (hd : d.Legible) (he : e.Legible)
    (hkey : d.key = e.key) {env : Environment Float} (hjoin : ¬ d.JoinsStrings env) :
    (@HasNoNegativeZero .machine d → @HasNoNegativeZero .machine e →
        d.valueIn env = e.valueIn env) ∧
      (Library.machine.IgnoresZeroSigns → env.IgnoresZeroSigns →
        AlikeResults (d.valueIn env) (e.valueIn env)) :=
  (reordered_of_key_eq hd he hkey).valueIn_eq hd he hjoin

/-! ### Expressions with the same key -/

/-- Whether twice a number is the length of a string. -/
def twiceIsLength : Expr (Machine squaringLibrary) :=
  .binary .eq (.binary .mul (.number (2 : Float) "2") (.scalar ⟨"X"⟩))
    (.intrinsic .len [.scalar ⟨"B$"⟩])

/-- The same with all operands in the other order. -/
def lengthIsTwice : Expr (Machine squaringLibrary) :=
  .binary .eq (.intrinsic .len [.scalar ⟨"b$"⟩])
    (.binary .mul (.scalar ⟨"x"⟩) (.number (2 : Float) "2.0"))

/-- One number and one string. -/
def pair : Environment (Machine squaringLibrary) where
  scalar name := if name = "X" then some (.number (1.5 : Float)) else some (.string "ABC")
  element _ _ := none
  function _ _ := none

theorem isVariable_of_key {n : Name} (c : Char) (rest : List Char)
    (htext : n.text.toList.map Char.toUpper = c :: rest) (hletter : c.isAlpha)
    (hinside : (c :: rest).all (fun c => !endsWord c) = true)
    (hadmitted : (!Grammar.reserved.contains (String.ofList (c :: rest)) &&
      !List.isPrefixOf ['F', 'N'] (c :: rest)) = true) : n.IsVariable := by
  have hkey : n.key.toList = c :: rest := by rw [Name.key, Text.upper, String.toList_map, htext]
  refine ⟨⟨⟨c, rest, hkey, hletter⟩, by rw [hkey]; exact not_endsWord_of_all hinside⟩, ?_⟩
  rwa [Grammar.isVariableName, hkey, ← String.ofList_toList (s := n.key), hkey]

/-- The key is `((2 * X) = LEN(B$))`. -/
theorem key_twiceIsLength : twiceIsLength.key = lengthIsTwice.key := by decide +kernel

theorem isNumeral_two : IsNumeral (text (2 : Float)).toList :=
  Number.isNumeral_text (Number.same_self_iff.1 rfl)

theorem legible_twiceIsLength : twiceIsLength.Legible := by
  refine ⟨⟨isNumeral_two, ?_⟩, ?_, trivial⟩
  · exact isVariable_of_key 'X' [] rfl rfl rfl (by decide)
  · exact isVariable_of_key 'B' ['$'] rfl rfl rfl (by decide)

theorem legible_lengthIsTwice : lengthIsTwice.Legible := by
  refine ⟨⟨?_, trivial⟩, ?_, isNumeral_two⟩
  · exact isVariable_of_key 'B' ['$'] rfl rfl rfl (by decide)
  · exact isVariable_of_key 'X' [] rfl rfl rfl (by decide)

theorem not_joinsStrings_twiceIsLength (env : Environment (Machine squaringLibrary)) :
    ¬ twiceIsLength.JoinsStrings env := by
  rintro ⟨left, right, s, t, hmem, -⟩
  simp [twiceIsLength, subterms, subtermsOfList] at hmem

theorem hasNoNegativeZero_of_two {e : Expr (Machine squaringLibrary)}
    (h : ∀ (a : Float) s, .number a s ∈ e.subterms → a = 2) : e.HasNoNegativeZero := by
  intro a s ha hzero
  rw [h a s ha] at hzero
  have htwo : isZero (2 : Float) = false := rfl
  rw [Number.isZero_iff.2 ⟨_, hzero⟩] at htwo
  cases htwo

theorem valueIn_twiceIsLength :
    (twiceIsLength.Legible ∧ lengthIsTwice.Legible ∧ twiceIsLength.key = lengthIsTwice.key) ∧
      (¬ twiceIsLength.JoinsStrings pair ∧ twiceIsLength.HasNoNegativeZero ∧
        lengthIsTwice.HasNoNegativeZero) ∧
      (twiceIsLength.valueIn pair).bind Value.number? = some (Arithmetic.ofInt (-1)) ∧
      twiceIsLength.valueIn pair = lengthIsTwice.valueIn pair := by
  have hzero : twiceIsLength.HasNoNegativeZero ∧ lengthIsTwice.HasNoNegativeZero := by
    constructor <;> refine hasNoNegativeZero_of_two fun a s ha => ?_
    · simp [twiceIsLength, subterms, subtermsOfList] at ha
      exact (Expr.number.inj ha).1
    · simp [lengthIsTwice, subterms, subtermsOfList] at ha
      exact (Expr.number.inj ha).1
  refine ⟨⟨legible_twiceIsLength, legible_lengthIsTwice, key_twiceIsLength⟩,
    ⟨not_joinsStrings_twiceIsLength pair, hzero⟩, by decide +kernel, ?_⟩
  have h := valueIn_eq_of_key_eq squaringLibrary legible_twiceIsLength legible_lengthIsTwice
    key_twiceIsLength
  exact (h.1 pair (not_joinsStrings_twiceIsLength pair)).1 hzero.1 hzero.2

/-! ### Joined strings -/

/-- Two strings one after the other. -/
def joined (left right : String) : Expr Float := .binary .add (.string left) (.string right)

/-- The key does not tell in which order strings are joined. -/
theorem key_joined :
    (joined "A" "B").Legible ∧ (joined "B" "A").Legible ∧
      (joined "A" "B").hasSideEffects = false ∧ (joined "B" "A").hasSideEffects = false ∧
      (joined "A" "B").key = (joined "B" "A").key ∧
      (joined "A" "B").constant? = some (.string "AB") ∧
      (joined "B" "A").constant? = some (.string "BA") := by
  have hlegible : '"' ∉ "A".toList ∧ '"' ∉ "B".toList := by decide
  have hab : (joined "A" "B").key = "(\"A\" + \"B\")" := by decide +kernel
  have hba : (joined "B" "A").key = "(\"A\" + \"B\")" := by decide +kernel
  refine ⟨hlegible, hlegible.symm, ?_, ?_, hab.trans hba.symm, rfl, rfl⟩ <;> decide +kernel

end Expr
end LineBasic
