import LineBasic.Proofs.Grammar.Operands

/-!
# Written expressions are read back

The text of an expression has parentheses only where the binding strengths need them. It is read as
that expression again (`Grammar.expression_source`), with signs taken for operators
(`Grammar.expression_printed`), and the canonical text as the expression in its canonical spelling
(`expression_roundTrip`).

One thing stands in the way. The grammar takes `NOT` for a word as soon as no letter follows, so
that a variable such as `NOT1` is read only behind a sign or an arithmetic operator, where no `NOT`
may stand. Written elsewhere, as the canonical text of `+NOT1` has it, it is the operator with an
operand (`exists_not_roundTrip`). So the expressions are those in which such a variable stands where
it can be read (`Expr.clearOfNot`).

An operand in parentheses is read at the strongest level and so at all of them. Any other operand is
read at its own level and at those above it: they pass it on, unless a mark of theirs stands at its
front.
-/

namespace LineBasic

open LineBasic.Parser

/-! ## Variables that begin with `NOT` -/

/-- The name begins with `NOT`, and the next character is no letter. -/
def Name.opensNot (n : Name) : Bool :=
  match n.key.toList with
  | 'N' :: 'O' :: 'T' :: c :: _ => !c.isAlpha
  | _ => false

namespace Expr

variable {ν : Type} {p q : Nat}

mutual

/-- Where the expression is read at the level, no variable that begins with `NOT` stands in a place
where the grammar looks for the operator. The first operand is read where the expression is. -/
def clearOfNot : Expr ν → Nat → Bool
  | .number .., _ => true
  | .string _, _ => true
  | .scalar name, p => 6 < p || !name.opensNot
  | .element name subscripts, p => (6 < p || !name.opensNot) && clearOfNotList subscripts
  | .unary op operand, _ =>
    operand.clearOfNot (if operand.precedence < op.precedence then 1 else op.precedence)
  | .binary op left right, p =>
    left.clearOfNot (if left.precedence < op.precedence then 1 else p) &&
      right.clearOfNot (if right.precedence < op.precedence + 1 then 1 else op.precedence + 1)
  | .intrinsic _ args, _ => clearOfNotList args
  | .call _ args, _ => clearOfNotList args

/-- The same for expressions in parentheses. -/
def clearOfNotList : List (Expr ν) → Bool
  | [] => true
  | e :: rest => e.clearOfNot 1 && clearOfNotList rest

end

theorem clearOfNotList_iff {es : List (Expr ν)} :
    clearOfNotList es = true ↔ ∀ e ∈ es, e.clearOfNot 1 = true := by
  induction es with
  | nil => simp [clearOfNotList]
  | cons e rest ih => simp [clearOfNotList, ih]

/-- At stronger levels nothing else is asked for. -/
theorem clearOfNot_mono (hpq : p ≤ q) : (e : Expr ν) → e.clearOfNot p = true → e.clearOfNot q = true
  | .number .., _ => rfl
  | .string _, _ => rfl
  | .scalar name, h => by
    simp only [clearOfNot, Bool.or_eq_true, decide_eq_true_eq] at h ⊢
    exact h.imp_left fun hp => Nat.lt_of_lt_of_le hp hpq
  | .element name subscripts, h => by
    simp only [clearOfNot, Bool.and_eq_true, Bool.or_eq_true, decide_eq_true_eq] at h ⊢
    exact ⟨h.1.imp_left fun hp => Nat.lt_of_lt_of_le hp hpq, h.2⟩
  | .unary .., h => h
  | .binary op left right, h => by
    simp only [clearOfNot, Bool.and_eq_true] at h ⊢
    refine ⟨?_, h.2⟩
    split
    next hless => simpa only [hless, if_true] using h.1
    next hless =>
      rw [if_neg hless] at h
      exact clearOfNot_mono hpq left h.1
  | .intrinsic .., h => h
  | .call .., h => h

/-! ## Texts of operators -/

/-- The text of an operand for an operator that wants operands of at least this strength. -/
def operandSource (q : Nat) (e : Expr Float) : List Char :=
  if e.precedence < q then '(' :: (e.source.toList ++ [')']) else e.source.toList

theorem toList_enclose {q : Nat} {e : Expr Float} {needed : Bool}
    (h : needed = decide (e.precedence < q)) :
    (enclose needed (e.write .asTyped)).toList = operandSource q e := by
  rw [h, enclose, operandSource]
  split
  next hless =>
    rw [if_pos (of_decide_eq_true hless)]
    simp [source]
  next hless => rw [if_neg (mt decide_eq_true hless), source]

theorem source_unary (op : UnaryOp) (operand : Expr Float) :
    (Expr.unary op operand).source.toList =
      op.symbol.toList ++ operandSource op.precedence operand := by
  rw [source, write, String.toList_append, toList_enclose rfl]

theorem source_binary (op : BinaryOp) (left right : Expr Float) :
    (Expr.binary op left right).source.toList = operandSource op.precedence left ++
      ' ' :: (op.symbol.toList ++ ' ' :: operandSource (op.precedence + 1) right) := by
  have hleft : (enclose (left.precedence < op.precedence) (left.write .asTyped)).toList =
      operandSource op.precedence left := toList_enclose rfl
  have hright : (enclose (right.precedence ≤ op.precedence) (right.write .asTyped)).toList =
      operandSource (op.precedence + 1) right :=
    toList_enclose (decide_eq_decide.2 Nat.lt_succ_iff.symm)
  rw [source, write]
  simp [hleft, hright]

theorem precedence_bounds (e : Expr ν) : 0 < e.precedence ∧ e.precedence ≤ 14 := by
  cases e with
  | unary op =>
    change 0 < op.precedence ∧ op.precedence ≤ 14
    cases op <;> decide
  | binary op =>
    change 0 < op.precedence ∧ op.precedence ≤ 14
    cases op <;> decide
  | _ => exact ⟨Nat.succ_pos 13, Nat.le_refl 14⟩

end Expr

namespace Grammar

variable {inner : Parser (Expr Float)} {p q n : Nat} {s rest lead : List Char} {e : Expr Float}

/-! ## From a level to the levels above it -/

/-- The level reads the text as the expression, if something comes next that stops it. -/
def Reads (inner : Parser (Expr Float)) (p : Nat) (s : List Char) (e : Expr Float) : Prop :=
  ∀ ⦃lead rest : List Char⦄, IsBlank lead → Stops p rest →
    level inner p (lead ++ (s ++ rest)) = .accepted e rest

/-- The level reads the text as its first operands, and goes on behind them. -/
def Leads (inner : Parser (Expr Float)) (p : Nat) (s : List Char) (e : Expr Float) : Prop :=
  ∀ ⦃lead rest t : List Char⦄ ⦃whole : Expr Float⦄, IsBlank lead → Stops (p + 1) rest →
    resume inner p e rest = .accepted whole t →
      level inner p (lead ++ (s ++ rest)) = .accepted whole t

/-- The level reads the text as the expression, and goes on behind it if it joins operands. -/
structure ReadsAt (inner : Parser (Expr Float)) (p : Nat) (s : List Char) (e : Expr Float) :
    Prop where
  reads : Reads inner p s e
  leads : joins p = true → Leads inner p s e

theorem ReadsAt.of_leads (hp : joins p = true) (h : Leads inner p s e) : ReadsAt inner p s e :=
  ⟨fun _ _ hlead hrest => h hlead (hrest.mono (Nat.le_succ p)) (resume_of_stops hp hrest),
    fun _ => h⟩

theorem ReadsAt.of_reads (hp : joins p = false) (h : Reads inner p s e) : ReadsAt inner p s e :=
  ⟨h, fun hjoins => absurd (hp.symm.trans hjoins) Bool.false_ne_true⟩

/-- No sign stands at the front of the text. -/
def NoSign (s : List Char) : Prop := ∀ rest, StartsUnsigned (s ++ rest)

/-- No `NOT` is read at the front of the text. -/
def NoNot (s : List Char) : Prop :=
  ∀ ⦃lead rest : List Char⦄, IsBlank lead → EndsToken rest →
    accepts (keyword "NOT") (lead ++ (s ++ rest)) = false

theorem level_cases : ∀ p < 14, 0 < p → p = 6 ∨ p = 12 ∨ joins p = true := by decide

theorem ReadsAt.above (h : ReadsAt inner (p + 1) s e) (hp : 0 < p) (hlt : p < 14)
    (hsign : p = 12 → NoSign s) (hnot : p = 6 → NoNot s) : ReadsAt inner p s e := by
  rcases level_cases p hlt hp with rfl | rfl | hjoins
  · refine .of_reads rfl fun lead rest hlead hrest => ?_
    exact level_relational (hnot rfl hlead hrest.endsToken)
      (h.reads hlead (hrest.mono (Nat.le_succ 6)))
  · refine .of_reads rfl fun lead rest hlead hrest => ?_
    exact level_negation hlead (hsign rfl rest) (h.reads hlead (hrest.mono (Nat.le_succ 12)))
  · refine .of_leads hjoins fun lead rest t whole hlead hrest hwhole => ?_
    exact (level_of_next hjoins (h.reads hlead hrest)).trans hwhole

theorem ReadsAt.up (h : ReadsAt inner q s e) (hp : 0 < p) (hpq : p ≤ q) (hq : q ≤ 14)
    (hsign : 12 < q → NoSign s) (hnot : p ≤ 6 → 6 < q → NoNot s) : ReadsAt inner p s e := by
  induction q, hpq using Nat.le_induction with
  | base => exact h
  | succ q hpq ih =>
    refine ih (h.above (by omega) (by omega) ?_ ?_) (by omega) ?_ ?_
    · exact fun _ => hsign (by omega)
    · exact fun _ => hnot (by omega) (by omega)
    · exact fun _ => hsign (by omega)
    · exact fun hp _ => hnot hp (by omega)

/-! ## What stands at the front of a text -/

theorem noNot_cons {c : Char} (hc : foldCase c ≠ 'n') (hblank : ¬ Text.isBlank c) :
    NoNot (c :: s) := by
  intro lead rest hlead _
  have hword : "NOT".toList = 'N' :: ['O', 'T'] := rfl
  have hunlike : ¬ Begins "NOT" (c :: (s ++ rest)) := by
    refine not_begins_of_head hword ?_
    rintro _ ⟨⟩
    exact hc
  exact not_accepts_keyword (by decide) hlead (startsDark_cons hblank)
    fun front behind hs hfront => absurd ⟨front, behind, hs, hfront⟩ hunlike

/-- A name that is not the word and does not go on like one with a suffix is not taken for it. -/
theorem noNot_name {name : Name} (hspelled : IsSpelled name.text.toList) (hne : name.key ≠ "NOT")
    (hopens : name.opensNot = false) : NoNot name.text.toList := by
  intro lead rest hlead hrest
  refine not_accepts_keyword (by decide) hlead (hspelled.startsDark rest) ?_
  intro front behind hs hfront
  have hbegins : Begins "NOT" (name.text.toList ++ rest) := ⟨front, behind, hs, hfront⟩
  obtain ⟨front', more, htext, hfront'⟩ :=
    exists_prefix_of_begins (by decide) (by decide) hrest hbegins
  have hlength : front'.length = front.length := by
    rw [← List.length_map foldCase, hfront', ← hfront, List.length_map]
  rw [htext, List.append_assoc] at hs
  obtain ⟨-, rfl⟩ := List.append_inj hs hlength
  have hkey : name.key.toList = 'N' :: 'O' :: 'T' :: more.map Char.toUpper := by
    rw [Name.key, Text.upper, String.toList_map, htext, List.map_append,
      map_toUpper_of_foldCase (by decide) hfront']
    rfl
  cases more with
  | nil => exact absurd (String.toList_inj.1 (hkey.trans rfl)) hne
  | cons c more =>
    rw [Name.opensNot, hkey] at hopens
    have hletter : c.toUpper.isAlpha = true := by simpa using hopens
    exact ⟨c, rfl, (isAlpha_toUpper c).symm.trans hletter⟩

theorem IsPlainName.noNot {name : Name} (h : IsPlainName name) (hopens : name.opensNot = false) :
    NoNot name.text.toList := by
  refine noNot_name h.spelled ?_ hopens
  intro hkey
  have hadmitted := h.admitted
  rw [isVariableName, hkey] at hadmitted
  exact absurd hadmitted (by decide)

theorem noNot_intrinsic (f : Intrinsic) : NoNot f.name.toList := by
  change NoNot (⟨f.name⟩ : Name).text.toList
  refine noNot_name (isSpelled_name f) ?_ ?_
  · rw [Name.key, upper_name]
    cases f <;> decide
  · rw [Name.opensNot, Name.key, upper_name]
    cases f <;> rfl

theorem NoNot.append {t : List Char} (h : NoNot s)
    (ht : ∀ rest, EndsToken rest → EndsToken (t ++ rest)) : NoNot (s ++ t) := by
  intro lead rest hlead hrest
  rw [List.append_assoc]
  exact h hlead (ht rest hrest)

theorem NoSign.append (h : NoSign s) (t : List Char) : NoSign (s ++ t) := by
  intro rest
  rw [List.append_assoc]
  exact h _

theorem noSign_cons {c : Char} (hminus : c ≠ '-') (hplus : c ≠ '+') (hblank : ¬ Text.isBlank c) :
    NoSign (c :: s) := by
  rintro rest _ ⟨⟩
  exact ⟨hminus, hplus, hblank⟩

theorem noSign_of_isAlpha {c : Char} (hc : c.isAlpha) : NoSign (c :: s) := by
  refine noSign_cons ?_ ?_ (not_isBlank_of_isAlpha hc)
  · rintro rfl
    exact absurd hc (by decide)
  · rintro rfl
    exact absurd hc (by decide)

theorem IsSpelled.noSign (h : IsSpelled s) : NoSign s := by
  obtain ⟨c, more, rfl, hc⟩ := h.exists_eq_cons
  exact noSign_of_isAlpha hc

theorem noSign_noNot_number {x : Float} (h : IsNumberText s x) : NoSign s ∧ NoNot s := by
  obtain ⟨c, more, rfl, hdigit | rfl | rfl⟩ := h.exists_eq_cons
  · rw [isDigit_iff] at hdigit
    have other (d : Char) (hd : d.toNat < 48) : c ≠ d := by
      rw [Ne, eq_iff_toNat_eq]
      omega
    have hblank : ¬ Text.isBlank c := by
      rw [Text.isBlank_iff]
      omega
    refine ⟨noSign_cons (other '-' (by decide)) (other '+' (by decide)) hblank, ?_⟩
    refine noNot_cons ?_ hblank
    rw [foldCase_of_ascii (by omega), Ne, eq_iff_toNat_eq, toNat_toLower, if_neg (by omega)]
    have hn : 'n'.toNat = 110 := rfl
    omega
  · exact ⟨noSign_cons (by decide) (by decide) (by decide), noNot_cons (by decide) (by decide)⟩
  · exact ⟨noSign_cons (by decide) (by decide) (by decide), noNot_cons (by decide) (by decide)⟩

/-- A power or an operand begins without a sign. -/
theorem noSign_source (h : e.IsPrinted) (hp : 13 ≤ e.reread.precedence) :
    NoSign e.source.toList := by
  induction h with
  | number htext => exact (noSign_noNot_number htext).1
  | @signed value _ _ htext _ =>
    rw [Expr.precedence_reread, if_pos (Expr.isSigned_of_sign htext value)] at hp
    exact absurd hp (by decide)
  | string _ =>
    rw [Expr.source_string]
    exact noSign_cons (by decide) (by decide) (by decide)
  | scalar hname => exact hname.spelled.noSign
  | element hname hne _ _ =>
    rw [Expr.source_element hne]
    exact hname.spelled.noSign.append _
  | @unary op _ _ _ =>
    change 13 ≤ op.precedence at hp
    cases op <;> exact absurd hp (by decide)
  | @binary op left right _ _ ihleft _ =>
    rw [Expr.precedence_reread] at hp
    split at hp
    next => exact absurd hp (by decide)
    next hsigned =>
      change 13 ≤ op.precedence at hp
      have hpow : op = .pow := by cases op <;> first | rfl | exact absurd hp (by decide)
      rw [Expr.isSigned_binary_iff] at hsigned
      rw [Expr.source_binary]
      refine NoSign.append ?_ _
      rw [Expr.operandSource]
      split
      · exact noSign_cons (by decide) (by decide) (by decide)
      next hless =>
        refine ihleft ?_
        rw [left.precedence_reread, if_neg fun hleft => hsigned ⟨hpow, hleft⟩]
        exact Nat.le_trans hp (Nat.le_of_not_lt hless)
  | intrinsic _ _ =>
    rw [Expr.source_intrinsic]
    exact (isSpelled_name _).noSign.append _
  | call hname _ _ =>
    rw [Expr.source_call]
    obtain ⟨c, more, hc, hletter, -⟩ := hname.exists_eq_cons
    rw [hc]
    exact (noSign_of_isAlpha hletter).append _

theorem noNot_source (h : e.IsPrinted) (hp : 6 < e.precedence) (hclear : e.clearOfNot p = true)
    (hle : p ≤ 6) : NoNot e.source.toList := by
  induction h with
  | number htext => exact (noSign_noNot_number htext).2
  | @signed _ text digits htext _ =>
    change NoNot text.toList
    rw [htext]
    exact noNot_cons (by decide) (by decide)
  | string _ =>
    rw [Expr.source_string]
    exact noNot_cons (by decide) (by decide)
  | scalar hname =>
    simp only [Expr.clearOfNot, Bool.or_eq_true, decide_eq_true_eq, Bool.not_eq_true'] at hclear
    exact hname.noNot (hclear.resolve_left (by omega))
  | element hname hne _ _ =>
    simp only [Expr.clearOfNot, Bool.and_eq_true, Bool.or_eq_true, decide_eq_true_eq,
      Bool.not_eq_true'] at hclear
    rw [Expr.source_element hne]
    exact (hname.noNot (hclear.1.resolve_left (by omega))).append
      fun rest => endsToken_argumentSource _
  | @unary op _ _ _ =>
    change 6 < op.precedence at hp
    rw [Expr.source_unary]
    cases op with
    | not => exact absurd hp (by decide)
    | neg => exact noNot_cons (by decide) (by decide)
  | @binary op left right _ _ ihleft _ =>
    change 6 < op.precedence at hp
    simp only [Expr.clearOfNot, Bool.and_eq_true] at hclear
    rw [Expr.source_binary]
    refine NoNot.append ?_ ?_
    · rw [Expr.operandSource]
      split
      · exact noNot_cons (by decide) (by decide)
      next hless =>
        rw [if_neg hless] at hclear
        exact ihleft (by omega) hclear.1
    · rintro rest - _ ⟨⟩
      rfl
  | intrinsic _ _ =>
    rw [Expr.source_intrinsic]
    exact (noNot_intrinsic _).append fun rest => endsToken_argumentSource _
  | call hname _ _ =>
    rw [Expr.source_call]
    refine NoNot.append ?_ fun rest => endsToken_argumentSource _
    obtain ⟨c, more, hc, hletter, hfold⟩ := hname.exists_eq_cons
    rw [hc]
    exact noNot_cons (by rw [hfold]; decide) (not_isBlank_of_isAlpha hletter)

/-! ## Expressions -/

theorem readsAt_number {w : List Char} {x : Float} (h : IsNumberText w x) (hp : 0 < p)
    (hp14 : p ≤ 14) : ReadsAt inner p w (.number x (String.ofList w)) := by
  obtain ⟨hsign, hnot⟩ := noSign_noNot_number h
  have hread : ReadsAt inner 14 w (.number x (String.ofList w)) :=
    .of_reads rfl fun lead rest hlead hrest => atom_number h hlead hrest.endsToken
  exact hread.up hp hp14 (Nat.le_refl 14) (fun _ => hsign) fun _ _ => hnot

/-- The level of an operator reads its operands, if it leads with the left one and the right one is
read behind the operator. -/
theorem readsAt_binary {op : BinaryOp} {left right : Expr Float} {v w : List Char}
    (hleft : ReadsAt inner op.precedence v left)
    (hright : ∀ ⦃rest⦄, Stops (op.precedence + 1) rest →
      rightOperand inner op (' ' :: (w ++ rest)) = .accepted right rest) :
    ReadsAt inner op.precedence (v ++ ' ' :: (op.symbol.toList ++ ' ' :: w))
      (.binary op left right) := by
  refine .of_leads (joins_precedence op) fun lead rest t whole hlead hrest hwhole => ?_
  have hfollows : Stops (op.precedence + 1) (' ' :: (op.symbol.toList ++ ' ' :: (w ++ rest))) :=
    .operator (Nat.lt_succ_self _) _
  simp only [List.append_assoc, List.cons_append]
  exact hleft.leads (joins_precedence op) hlead hfollows (resume_step (hright hrest) hwhole)

/-- The text of the expression is read as it is meant, at the level of what is meant and at those
above it, if parentheses may be nested deeply enough. Behind a sign at its front a power is read. -/
structure ReadsUp (e : Expr Float) : Prop where
  reads ⦃n p : Nat⦄ : e.source.toList.length ≤ n → 0 < p → p ≤ e.reread.precedence →
    e.clearOfNot p = true → ReadsAt (nested n) p e.source.toList e.reread
  behind : e.isSigned = true → ∃ w, e.source.toList = '-' :: w ∧ NoSign w ∧
    ∀ ⦃n p : Nat⦄, e.source.toList.length ≤ n → e.clearOfNot p = true →
      ReadsAt (nested n) 13 w e.behindSign

/-- Inside parentheses. -/
theorem ReadsUp.readsBack (h : ReadsUp e) (hn : e.source.toList.length < n)
    (hclear : e.clearOfNot 1 = true) : ReadsBack (nested n) e := by
  intro lead rest hlead hrest
  obtain ⟨m, rfl⟩ := Nat.exists_eq_add_of_le' (Nat.lt_of_le_of_lt (Nat.zero_le _) hn)
  exact (h.reads (by omega) Nat.one_pos e.reread.precedence_bounds.1 hclear).reads hlead hrest

theorem readsBack_args {args : List (Expr Float)} (h : ∀ e ∈ args, ReadsUp e)
    (hn : (Expr.argumentSource args).length ≤ n) (hclear : Expr.clearOfNotList args = true) :
    ∀ e ∈ args, ReadsBack (nested n) e := by
  intro e he
  have hlength := Expr.length_source_le_of_mem he
  exact (h e he).readsBack (by omega) (Expr.clearOfNotList_iff.1 hclear e he)

/-- What is read at its own level is read at those above it. -/
theorem readsUp_of_own (h : e.IsPrinted) (hsigned : e.isSigned = false)
    (hown : ∀ ⦃n p : Nat⦄, e.source.toList.length ≤ n → p ≤ e.reread.precedence →
      e.clearOfNot p = true → ReadsAt (nested n) e.reread.precedence e.source.toList e.reread) :
    ReadsUp e where
  reads n p hn hp hle hclear := by
    refine (hown hn hle hclear).up hp hle e.reread.precedence_bounds.2 ?_ ?_
    · exact fun hq => noSign_source h hq
    · exact fun hp6 hq =>
        noNot_source h (Nat.lt_of_lt_of_le hq e.precedence_reread_le) hclear hp6
  behind hsigned' := absurd (hsigned.symm.trans hsigned') Bool.false_ne_true

/-- What is read behind a sign is read with it as a negation. -/
theorem readsUp_of_behind {w : List Char} (hsigned : e.isSigned = true)
    (hsource : e.source.toList = '-' :: w) (hsign : NoSign w)
    (hread : ∀ ⦃n p : Nat⦄, e.source.toList.length ≤ n → e.clearOfNot p = true →
      ReadsAt (nested n) 13 w e.behindSign) : ReadsUp e where
  reads n p hn hp hle hclear := by
    have hbehind : ReadsAt (nested n) 12 w e.behindSign :=
      (hread hn hclear).up (Nat.succ_pos 11) (Nat.le_succ 12) (Nat.le_succ 13) (fun _ => hsign)
        fun hp6 => absurd hp6 (by decide)
    have hown : ReadsAt (nested n) 12 ('-' :: w) (.unary .neg e.behindSign) :=
      .of_reads rfl fun lead rest hlead hrest =>
        level_neg hlead (hbehind.reads isBlank_nil hrest)
    rw [Expr.reread_of_isSigned hsigned] at hle ⊢
    rw [hsource]
    refine hown.up hp hle (by decide) (fun hlt => absurd hlt (Nat.lt_irrefl 12)) fun _ _ => ?_
    exact noNot_cons (by decide) (by decide)
  behind _ := ⟨w, hsource, hsign, hread⟩

/-- An operand is read at the level that its operator wants. -/
theorem ReadsUp.operand (h : ReadsUp e) (hn : (Expr.operandSource q e).length ≤ n) (hq : 0 < q)
    (hq14 : q ≤ 14) (hpq : p ≤ q) (hbare : q ≤ e.precedence → q ≤ e.reread.precedence)
    (hclear : e.clearOfNot (if e.precedence < q then 1 else p) = true) :
    ReadsAt (nested n) q (Expr.operandSource q e) e.reread := by
  rw [Expr.operandSource] at hn ⊢
  split at hn
  next hless =>
    rw [if_pos hless] at hclear ⊢
    simp only [List.length_cons, List.length_append, List.length_nil] at hn
    have hback : ReadsBack (nested n) e := h.readsBack (by omega) hclear
    have hread : ReadsAt (nested n) 14 ('(' :: (e.source.toList ++ [')'])) e.reread := by
      refine .of_reads rfl fun lead rest hlead _ => ?_
      rw [List.cons_append, List.append_assoc]
      exact atom_enclosed hback hlead rest
    refine hread.up hq hq14 (Nat.le_refl 14) (fun _ => ?_) fun _ _ => ?_
    · exact noSign_cons (by decide) (by decide) (by decide)
    · exact noNot_cons (by decide) (by decide)
  next hless =>
    rw [if_neg hless] at hclear ⊢
    exact h.reads hn hq (hbare (Nat.le_of_not_lt hless)) (e.clearOfNot_mono hpq hclear)

/-- Where a sign may stand, a number or a power that is written with one needs no parentheses. -/
theorem le_precedence_reread (hq : q ≤ 12 ∨ e.isSigned = false) (h : q ≤ e.precedence) :
    q ≤ e.reread.precedence := by
  rw [e.precedence_reread]
  split
  next hsigned => exact hq.resolve_right (by rw [hsigned]; exact nofun)
  next => exact h

theorem readsUp_unary {op : UnaryOp} {operand : Expr Float} (h : ReadsUp operand)
    (hprinted : operand.IsPrinted) : ReadsUp (.unary op operand) := by
  refine readsUp_of_own (.unary hprinted) rfl fun n p hn hp hclear => ?_
  rw [Expr.source_unary] at hn ⊢
  rw [List.length_append] at hn
  have hbounds := (Expr.unary op operand).precedence_bounds
  have hop : op.precedence ≤ 12 := by cases op <;> decide
  have hoperand := h.operand (q := op.precedence) (n := n) (by omega) hbounds.1 hbounds.2
    (Nat.le_refl _) (le_precedence_reread (.inl hop)) hclear
  cases op with
  | neg =>
    refine .of_reads rfl fun lead rest hlead hrest => ?_
    have hread := hoperand.reads isBlank_nil hrest
    rw [List.nil_append] at hread
    have hsymbol : UnaryOp.neg.symbol.toList = ['-'] := by decide
    rw [hsymbol, List.append_assoc, List.singleton_append]
    exact level_neg hlead hread
  | not =>
    refine .of_reads rfl fun lead rest hlead hrest => ?_
    have hread := hoperand.reads isBlank_space hrest
    rw [List.singleton_append] at hread
    have hsymbol : UnaryOp.not.symbol.toList = "NOT".toList ++ [' '] := by decide
    rw [hsymbol, List.append_assoc, List.append_assoc, List.singleton_append]
    exact level_not hlead hread

/-- An exponent is an operand without a sign, or a number behind one. -/
theorem exponentExpr_operand (h : ReadsUp e) (hprinted : e.IsPrinted)
    (hn : (Expr.operandSource 14 e).length ≤ n)
    (hclear : e.clearOfNot (if e.precedence < 14 then 1 else 14) = true) (hrest : Stops 14 rest) :
    exponentExpr (nested n) (' ' :: (Expr.operandSource 14 e ++ rest)) =
      .accepted e.reread rest := by
  by_cases hnumber : e.isSigned = true ∧ 14 ≤ e.precedence
  · obtain ⟨hsigned, hatom⟩ := hnumber
    cases hprinted with
    | number htext =>
      rw [Expr.isSigned_of_isNumberText htext] at hsigned
      cases hsigned
    | @signed value text digits htext hdigits =>
      have hsource : Expr.operandSource 14 (.number value text) = '-' :: digits := htext
      have hread : exponentExpr (nested n) ([] ++ (digits ++ rest)) =
          .accepted (.number (Arithmetic.absolute value) (String.ofList digits)) rest :=
        exponentExpr_of_atom isBlank_nil ((noSign_noNot_number hdigits).1 rest)
          (atom_number hdigits isBlank_nil hrest.endsToken)
      rw [Expr.reread_of_isSigned hsigned, Expr.behindSign_number htext, hsource]
      exact exponentExpr_neg isBlank_space hread
    | @binary op =>
      change 14 ≤ op.precedence at hatom
      cases op <;> exact absurd hatom (by decide)
    | _ => cases hsigned
  · have hbare (hatom : 14 ≤ e.precedence) : 14 ≤ e.reread.precedence := by
      rw [e.precedence_reread, if_neg fun hsigned => hnumber ⟨hsigned, hatom⟩]
      exact hatom
    have hoperand : ReadsAt (nested n) 14 (Expr.operandSource 14 e) e.reread :=
      h.operand (q := 14) (p := 14) hn (Nat.succ_pos 13) (Nat.le_refl 14) (Nat.le_refl 14) hbare
        hclear
    have hread : atom (nested n) ([' '] ++ (Expr.operandSource 14 e ++ rest)) =
        .accepted e.reread rest := hoperand.reads isBlank_space hrest
    refine exponentExpr_of_atom isBlank_space ?_ hread
    rw [Expr.operandSource]
    split
    · exact noSign_cons (by decide) (by decide) (by decide) rest
    next hless =>
      exact noSign_source hprinted (Nat.le_of_succ_le (hbare (Nat.le_of_not_lt hless))) rest

theorem rightOperand_source {op : BinaryOp} (h : ReadsUp e) (hprinted : e.IsPrinted)
    (hn : (Expr.operandSource (op.precedence + 1) e).length ≤ n)
    (hclear : e.clearOfNot (if e.precedence < op.precedence + 1 then 1 else op.precedence + 1) =
      true) (hrest : Stops (op.precedence + 1) rest) :
    rightOperand (nested n) op (' ' :: (Expr.operandSource (op.precedence + 1) e ++ rest)) =
      .accepted e.reread rest := by
  rw [rightOperand]
  split
  next hpow =>
    subst hpow
    exact exponentExpr_operand h hprinted hn hclear hrest
  next hpow =>
    have hop : op.precedence + 1 ≤ 12 := by
      cases op <;> first | exact absurd rfl hpow | decide
    exact (h.operand hn (Nat.succ_pos _) (by omega) (Nat.le_refl _)
      (le_precedence_reread (.inl hop)) hclear).reads isBlank_space hrest

/-- A power with a sign at its front. -/
theorem readsUp_signedPower {base exponent : Expr Float} (hl : ReadsUp base) (hr : ReadsUp exponent)
    (hexponent : exponent.IsPrinted) (hsigned : base.isSigned = true) :
    ReadsUp (.binary .pow base exponent) := by
  obtain ⟨w, hbase, hsign, hbehind⟩ := hl.behind hsigned
  have hbare : Expr.operandSource 13 base = '-' :: w := by
    rw [Expr.operandSource, if_neg (Nat.not_lt.2 (Expr.precedence_of_isSigned hsigned)), hbase]
  have hsource : (Expr.binary .pow base exponent).source.toList =
      '-' :: (w ++ ' ' :: ("^".toList ++ ' ' :: Expr.operandSource 14 exponent)) := by
    rw [Expr.source_binary]
    exact congrArg (· ++ ' ' :: ("^".toList ++ ' ' :: Expr.operandSource 14 exponent)) hbare
  refine readsUp_of_behind (Expr.isSigned_binary_iff.2 ⟨rfl, hsigned⟩) hsource (hsign.append _) ?_
  intro n p hn hclear
  rw [hsource] at hn
  simp only [List.length_cons, List.length_append] at hn
  simp only [Expr.clearOfNot, Bool.and_eq_true] at hclear
  have hleft : ReadsAt (nested n) BinaryOp.pow.precedence w base.behindSign := by
    refine hbehind ?_ hclear.1
    rw [hbase, List.length_cons]
    omega
  have hlength : (Expr.operandSource (BinaryOp.pow.precedence + 1) exponent).length ≤ n := by
    change (Expr.operandSource 14 exponent).length ≤ n
    omega
  exact readsAt_binary hleft fun rest hrest =>
    rightOperand_source hr hexponent hlength hclear.2 hrest

theorem readsUp_binary {op : BinaryOp} {left right : Expr Float} (hl : ReadsUp left)
    (hr : ReadsUp right) (hleft : left.IsPrinted) (hright : right.IsPrinted) :
    ReadsUp (.binary op left right) := by
  by_cases hsigned : op = .pow ∧ left.isSigned = true
  · obtain ⟨rfl, hbase⟩ := hsigned
    exact readsUp_signedPower hl hr hright hbase
  · have hplain : (Expr.binary op left right).isSigned = false :=
      Bool.eq_false_iff.2 fun h => hsigned (Expr.isSigned_binary_iff.1 h)
    have hop : op.precedence ≤ 12 ∨ left.isSigned = false := by
      by_cases hpow : op = .pow
      · exact .inr (Bool.eq_false_iff.2 fun hbase => hsigned ⟨hpow, hbase⟩)
      · cases op <;> first | exact absurd rfl hpow | exact .inl (by decide)
    refine readsUp_of_own (.binary hleft hright) hplain fun n p hn hp hclear => ?_
    rw [Expr.reread_binary hplain] at hp ⊢
    rw [Expr.source_binary] at hn ⊢
    simp only [List.length_append, List.length_cons] at hn
    simp only [Expr.clearOfNot, Bool.and_eq_true] at hclear
    have hbounds := (Expr.binary op left right).precedence_bounds
    refine readsAt_binary ?_ fun rest hrest => ?_
    · exact hl.operand (by omega) hbounds.1 hbounds.2 hp (le_precedence_reread hop) hclear.1
    · exact rightOperand_source hr hright (by omega) hclear.2 hrest

/-- Every expression whose names and literals can be read. -/
theorem readsUp_of_isPrinted (h : e.IsPrinted) : ReadsUp e := by
  induction h with
  | @number value text htext =>
    have hplain := Expr.isSigned_of_isNumberText htext value
    refine readsUp_of_own (.number htext) hplain fun n p _ _ _ => ?_
    have hread : ReadsAt (nested n) 14 text.toList _ :=
      readsAt_number htext (Nat.succ_pos 13) (Nat.le_refl 14)
    rw [String.ofList_toList] at hread
    rw [Expr.reread_number htext value]
    exact hread
  | @signed value text digits htext hdigits =>
    refine readsUp_of_behind (Expr.isSigned_of_sign htext value) htext
      (noSign_noNot_number hdigits).1 fun n p _ _ => ?_
    rw [Expr.behindSign_number htext value]
    exact readsAt_number hdigits (Nat.succ_pos 12) (Nat.le_succ 13)
  | string hbody =>
    refine readsUp_of_own (.string hbody) rfl fun n p _ _ _ =>
      .of_reads rfl fun lead rest hlead _ => ?_
    rw [Expr.source_string, List.cons_append, List.append_assoc]
    exact atom_string hbody hlead
  | scalar hname =>
    refine readsUp_of_own (.scalar hname) rfl fun n p _ _ _ =>
      .of_reads rfl fun lead rest hlead hrest => ?_
    exact atom_of_plain hname hlead hrest.endsToken (subscripts?_of_stops hrest)
  | @element name subscripts hname hne hargs ih =>
    refine readsUp_of_own (.element hname hne hargs) rfl fun n p hn _ hclear =>
      .of_reads rfl fun lead rest hlead hrest => ?_
    simp only [Expr.clearOfNot, Bool.and_eq_true] at hclear
    rw [Expr.source_element hne] at hn ⊢
    rw [List.length_append] at hn
    have hback : ∀ e ∈ subscripts, ReadsBack (nested n) e :=
      readsBack_args ih (by omega) hclear.2
    rw [List.append_assoc]
    exact atom_of_plain hname hlead (endsToken_argumentSource _ hrest.endsToken)
      (subscripts?_append hne hback rest)
  | unary hoperand ih => exact readsUp_unary ih hoperand
  | binary hleft hright ihleft ihright => exact readsUp_binary ihleft ihright hleft hright
  | @intrinsic f args hargs ih =>
    refine readsUp_of_own (.intrinsic hargs) rfl fun n p hn _ hclear =>
      .of_reads rfl fun lead rest hlead hrest => ?_
    rw [Expr.source_intrinsic] at hn ⊢
    rw [List.length_append] at hn
    rw [List.append_assoc]
    exact atom_intrinsic f (readsBack_args ih (by omega) hclear) hlead hrest
  | @call name args hname hargs ih =>
    refine readsUp_of_own (.call hname hargs) rfl fun n p hn _ hclear =>
      .of_reads rfl fun lead rest hlead hrest => ?_
    rw [Expr.source_call] at hn ⊢
    rw [List.length_append] at hn
    rw [List.append_assoc]
    exact atom_call hname (readsBack_args ih (by omega) hclear) hlead hrest

/-- The text of an expression is read as it is meant, to its end. -/
theorem expression_printed (h : e.IsPrinted) (hclear : e.clearOfNot 1 = true) :
    expression e.source.toList = .accepted e.reread [] := by
  have hread := (readsUp_of_isPrinted h).readsBack (Nat.lt_succ_self _) hclear isBlank_nil .nil
  rwa [List.nil_append, List.append_nil] at hread

/-- The text of an expression that was read is read as the expression. -/
theorem expression_source (h : e.IsSpelled) (hclear : e.clearOfNot 1 = true) :
    expression e.source.toList = .accepted e [] := by
  have hread := expression_printed h.isPrinted hclear
  rwa [h.reread_eq] at hread

end Grammar

/-! ## Round trips -/

namespace Expr

variable {ν : Type} [Arithmetic ν]

mutual

/-- The canonical spelling has the variables in the same places. -/
theorem clearOfNot_canonically (p : Nat) :
    (e : Expr ν) → e.canonically.clearOfNot p = e.clearOfNot p
  | .number .. => rfl
  | .string _ => rfl
  | .scalar name => by
    simp only [canonically, clearOfNot, Name.opensNot, name.key_key]
  | .element name subscripts => by
    simp only [canonically, clearOfNot, Name.opensNot, name.key_key,
      clearOfNotList_canonicallyList subscripts]
  | .unary op operand => by
    simp only [canonically, clearOfNot, precedence_canonically, clearOfNot_canonically _ operand]
  | .binary op left right => by
    simp only [canonically, clearOfNot, precedence_canonically, clearOfNot_canonically _ left,
      clearOfNot_canonically _ right]
  | .intrinsic _ args => clearOfNotList_canonicallyList args
  | .call _ args => clearOfNotList_canonicallyList args

theorem clearOfNotList_canonicallyList :
    (es : List (Expr ν)) → clearOfNotList (canonicallyList es) = clearOfNotList es
  | [] => rfl
  | e :: rest =>
    congrArg₂ Bool.and (clearOfNot_canonically 1 e) (clearOfNotList_canonicallyList rest)

end

end Expr

/-- An expression that was read is read back from its text, with the names and the numbers as they
were typed, and from its canonical text in the canonical spelling, which has the same canonical text
and the same key. -/
theorem expression_roundTrip {s rest : List Char} {e : Expr Float}
    (h : Grammar.expression s = .accepted e rest) (hfinite : e.HasFiniteNumbers)
    (hclear : e.clearOfNot 1 = true) :
    Grammar.expression e.source.toList = .accepted e [] ∧
      Grammar.expression e.canonical.toList = .accepted e.canonically [] ∧
        e.canonically.canonical = e.canonical ∧ e.canonically.key = e.key := by
  have hspelled := Grammar.isSpelled_of_expression h
  refine ⟨Grammar.expression_source hspelled hclear, ?_, e.canonical_canonically, e.key_canonically⟩
  have hclear' : e.canonically.clearOfNot 1 = true := (e.clearOfNot_canonically 1).trans hclear
  have hread := Grammar.expression_source (hspelled.canonically hfinite) hclear'
  rwa [e.source_canonically] at hread

/-- A variable that begins with `NOT` behind a sign, and a number with a zero at its end. -/
theorem exists_roundTrip :
    ∃ e rest, Grammar.expression "a+b1 *-NOT1^ 2.50".toList = .accepted e rest ∧
      e.HasFiniteNumbers ∧ e.clearOfNot 1 = true ∧
        Grammar.expression "a + b1 * -NOT1 ^ 2.50".toList = .accepted e [] ∧
          Grammar.expression "A + B1 * -NOT1 ^ 2.5".toList = .accepted e.canonically [] := by
  have found : acceptsSuch Grammar.expression (fun e => (e.subterms.all fun d =>
      d.number?.all Arithmetic.isFinite) && (e.clearOfNot 1 &&
        (e.source == "a + b1 * -NOT1 ^ 2.50" && e.canonical == "A + B1 * -NOT1 ^ 2.5")))
      "a+b1 *-NOT1^ 2.50".toList = true := by
    decide +kernel
  obtain ⟨e, rest, haccepted, htest⟩ := exists_of_acceptsSuch found
  simp only [Bool.and_eq_true, beq_iff_eq] at htest
  obtain ⟨hfinite, hclear, hsource, hcanonical⟩ := htest
  have finite : e.HasFiniteNumbers := fun value text hmem => List.all_eq_true.1 hfinite _ hmem
  obtain ⟨hreadSource, hreadCanonical, -⟩ := expression_roundTrip haccepted finite hclear
  rw [hsource] at hreadSource
  rw [hcanonical] at hreadCanonical
  exact ⟨e, rest, haccepted, finite, hclear, hreadSource, hreadCanonical⟩

/-- Without the sign the canonical text of the variable is read as the operator `NOT`. -/
theorem exists_not_roundTrip :
    ∃ e, Grammar.expression "+NOT1".toList = .accepted e [] ∧ e.HasFiniteNumbers ∧
      e.source = "NOT1" ∧ e.canonical = "NOT1" ∧
        Grammar.expression "NOT1".toList ≠ .accepted e [] ∧
          Grammar.expression "NOT1".toList ≠ .accepted e.canonically [] := by
  have found : acceptsSuch Grammar.expression (fun e => (e.subterms.all fun d =>
      d.number?.all Arithmetic.isFinite) && ((e.isTrivial && e.canonically.isTrivial) &&
        (e.source == "NOT1" && e.canonical == "NOT1"))) "+NOT1".toList = true := by
    decide +kernel
  have hrest : restOf? Grammar.expression "+NOT1".toList = some [] := by decide +kernel
  obtain ⟨e, rest, haccepted, htest⟩ := exists_of_acceptsSuch found
  obtain ⟨_, hread⟩ := exists_of_restOf? hrest
  obtain ⟨-, rfl⟩ := Outcome.accepted.inj (haccepted.symm.trans hread)
  simp only [Bool.and_eq_true, beq_iff_eq] at htest
  obtain ⟨hfinite, ⟨htrivial, htrivial'⟩, hsource, hcanonical⟩ := htest
  have hoperator : acceptsSuch Grammar.expression Expr.isTrivial "NOT1".toList = false := by
    decide +kernel
  have other {e : Expr Float} (he : e.isTrivial = true) :
      Grammar.expression "NOT1".toList ≠ .accepted e [] := by
    intro haccepted
    rw [acceptsSuch_of_accepted haccepted, he] at hoperator
    cases hoperator
  exact ⟨e, haccepted, fun value text hmem => List.all_eq_true.1 hfinite _ hmem, hsource,
    hcanonical, other htrivial, other htrivial'⟩

end LineBasic
