import LineBasic.Proofs.Grammar.Literals

/-!
# Levels of expressions

The grammar of expressions has a parser for each binding strength, here called by its number
(`Grammar.level`). What stands behind an operand decides whether a level goes on: before the end, a
closing parenthesis, a comma, or an operator that binds weaker than the level, it stops
(`Grammar.Stops`). A level that joins operands goes on behind an operand in a way that does not
depend on how the operand was read (`Grammar.resume`), so that a chain of operators is read from the
left (`Grammar.resume_step`).
-/

namespace LineBasic.Grammar

open LineBasic.Parser

/-- The operators of a binding strength in their spellings, but for the power. -/
def spellingsAt : Nat → List (String × BinaryOp)
  | 1 => [("IMP", .imp)]
  | 2 => [("EQV", .eqv)]
  | 3 => [("XOR", .xor)]
  | 4 => [("OR", .or)]
  | 5 => [("AND", .and)]
  | 7 => relationalSpellings
  | 8 => [("+", .add), ("-", .sub)]
  | 9 => [("MOD", .mod)]
  | 10 => [("\\", .intDiv)]
  | 11 => [("*", .mul), ("/", .div)]
  | _ => []

/-- The parser of what binds at least as strong as the number says. -/
def level (inner : Parser (Expr Float)) : Nat → Parser (Expr Float)
  | 1 => impExpr inner
  | 2 => eqvExpr inner
  | 3 => xorExpr inner
  | 4 => orExpr inner
  | 5 => andExpr inner
  | 6 => notExpr inner
  | 7 => relationalExpr inner
  | 8 => additiveExpr inner
  | 9 => modExpr inner
  | 10 => intDivExpr inner
  | 11 => multiplicativeExpr inner
  | 12 => negationExpr inner
  | 13 => powerExpr inner
  | _ => atom inner

/-- The binding strengths of binary operators. -/
def joins (p : Nat) : Bool := BinaryOp.all.any fun op => op.precedence == p

variable {inner : Parser (Expr Float)} {p q : Nat} {s t rest lead w : List Char}
  {e e' left right : Expr Float} {op : BinaryOp}

/-! ## What stops a level -/

/-- What follows an operand and cannot be read by a level. -/
inductive Stops (p : Nat) : List Char → Prop
  | nil : Stops p []
  | close (s : List Char) : Stops p (')' :: s)
  | comma (s : List Char) : Stops p (',' :: s)
  | operator {op : BinaryOp} (h : op.precedence < p) (s : List Char) :
    Stops p (' ' :: (op.symbol.toList ++ ' ' :: s))

theorem Stops.mono (h : Stops p s) (hle : p ≤ q) : Stops q s := by
  cases h with
  | nil => exact .nil
  | close s => exact .close s
  | comma s => exact .comma s
  | operator h s => exact .operator (Nat.lt_of_lt_of_le h hle) s

theorem Stops.endsToken (h : Stops p s) : EndsToken s := by
  cases h with
  | nil => rintro _ ⟨⟩
  | close | comma | operator =>
    rintro _ ⟨⟩
    rfl

/-- How operators begin. -/
theorem exists_symbol_eq_cons (op : BinaryOp) :
    ∃ c more, op.symbol.toList = c :: more ∧ ¬ Text.isBlank c ∧ c ≠ '(' ∧ ¬ Text.isWhite c := by
  cases op <;> exact ⟨_, _, rfl, by decide, by decide, by decide⟩

theorem Stops.symbol_open (h : Stops p s) : symbol "(" s = .refused (s.dropWhile Text.isBlank) := by
  cases h with
  | nil | close | comma => rfl
  | @operator op _ s =>
    obtain ⟨c, more, hc, hblank, hopen, -⟩ := exists_symbol_eq_cons op
    rw [hc, List.dropWhile_cons_of_pos rfl, List.cons_append, List.dropWhile_cons_of_neg hblank]
    have hunlike : ¬ "(".toList <+: c :: (more ++ ' ' :: s) :=
      fun hprefix => hopen (List.cons_prefix_cons.1 hprefix).1.symm
    exact symbol_of_unlike isBlank_space (startsDark_cons hblank) hunlike

theorem Stops.trimStart (h : Stops p s) : ∀ c ∈ (Text.trimStart s).head?, c ≠ '(' := by
  cases h with
  | nil => rintro _ ⟨⟩
  | close | comma =>
    rintro _ ⟨⟩
    decide
  | @operator op _ s =>
    obtain ⟨c, more, hc, -, hopen, hwhite⟩ := exists_symbol_eq_cons op
    rw [hc, Text.trimStart, List.dropWhile_cons_of_pos rfl, List.cons_append,
      List.dropWhile_cons_of_neg hwhite]
    rintro _ ⟨⟩
    exact hopen

/-! ## Operators -/

/-- No operator is read where none of them begins. -/
theorem not_accepts_operatorOf {spellings : List (String × BinaryOp)} (hlead : IsBlank lead)
    (hdark : StartsDark s) (h : ∀ o ∈ spellings, isPlain o.1 = true ∧
      ∃ d more, o.1.toList = d :: more ∧ ∀ c ∈ s.head?, foldCase c ≠ foldCase d) :
    accepts (operatorOf spellings) (lead ++ s) = false := by
  suffices hrefused : ∃ place, operatorOf spellings (lead ++ s) = .refused place by
    obtain ⟨place, hplace⟩ := hrefused
    exact accepts_of_refused hplace
  induction spellings with
  | nil => exact ⟨_, rfl⟩
  | cons o others ih =>
    obtain ⟨⟨hplain, d, more, hd, hne⟩, hothers⟩ := List.forall_mem_cons.1 h
    obtain ⟨spelling, op⟩ := o
    have refused : ∃ place, operatorOf [(spelling, op)] (lead ++ s) = .refused place := by
      change ∃ place, (if spelling.toList.all Char.isAlpha then _ else _ : Parser BinaryOp) _ = _
      split
      · refine ⟨s, bind_of_refused ((after_blanks hlead hdark).trans ?_)⟩
        exact wholly_of_refused
          (bind_of_refused (word_of_not_begins hplain (not_begins_of_head hd hne)))
      · refine ⟨s, bind_of_refused (symbol_of_unlike hlead hdark ?_)⟩
        rintro ⟨rest, rfl⟩
        rw [hd] at hne
        exact hne d rfl rfl
    cases others with
    | nil => exact refused
    | cons o' others =>
      obtain ⟨place, hplace⟩ := refused
      obtain ⟨place', hplace'⟩ := ih hothers
      exact ⟨place', (orElse_of_refused hplace).trans hplace'⟩

/-- How the operators of one strength are spelled: plainly, and with other first characters than
weaker operators, commas and closing parentheses. -/
theorem spellingsAt_spec : ∀ q < 12, ∀ o ∈ spellingsAt q, isPlain o.1 = true ∧
    o.1.toList.head?.any fun d => foldCase d != ',' && foldCase d != ')' &&
      BinaryOp.all.all fun op => q ≤ op.precedence || op.symbol.toList.head?.all fun c =>
        foldCase c != foldCase d := by
  decide +kernel

theorem mem_all (op : BinaryOp) : op ∈ BinaryOp.all := by
  cases op <;> decide

/-- No operator of a level is read where the level stops. -/
theorem Stops.not_accepts_operator (h : Stops p s) (hle : p ≤ q) (hq : q < 12) :
    accepts (operatorOf (spellingsAt q)) s = false := by
  have refused (lead s : List Char) (hlead : IsBlank lead) (hdark : StartsDark s)
      (h : ∀ d, (foldCase d != ',' && foldCase d != ')' && BinaryOp.all.all fun op =>
        q ≤ op.precedence || op.symbol.toList.head?.all fun c => foldCase c != foldCase d) = true →
        ∀ c ∈ s.head?, foldCase c ≠ foldCase d) :
      accepts (operatorOf (spellingsAt q)) (lead ++ s) = false := by
    refine not_accepts_operatorOf hlead hdark fun o ho => ?_
    obtain ⟨hplain, hhead⟩ := spellingsAt_spec q hq o ho
    obtain ⟨d, hd, hd'⟩ := (Option.any_eq_true ..).1 hhead
    obtain ⟨more, hmore⟩ := List.head?_eq_some_iff.1 hd
    exact ⟨hplain, d, more, hmore, h d hd'⟩
  simp only [Bool.and_eq_true, bne_iff_ne] at refused
  cases h with
  | nil =>
    refine refused [] [] isBlank_nil ?_ fun d _ => ?_
    · rintro _ ⟨⟩
    · rintro _ ⟨⟩
  | close s =>
    refine refused [] _ isBlank_nil (startsDark_cons (by decide)) fun d hd => ?_
    rintro _ ⟨⟩
    exact hd.1.2.symm
  | comma s =>
    refine refused [] _ isBlank_nil (startsDark_cons (by decide)) fun d hd => ?_
    rintro _ ⟨⟩
    exact hd.1.1.symm
  | @operator op hop s =>
    obtain ⟨c, more, hc, hblank, -, -⟩ := exists_symbol_eq_cons op
    rw [hc]
    refine refused [' '] _ isBlank_space (startsDark_cons hblank) fun d hd => ?_
    have hall := List.all_eq_true.1 hd.2 op (mem_all op)
    rw [hc, Bool.or_eq_true, decide_eq_true_eq] at hall
    rintro _ ⟨⟩
    exact bne_iff_ne.1 (hall.resolve_left (by omega))

/-- An operator with blanks around it is read, and the blank after it is left. -/
theorem operatorOf_append (hop : op ≠ .pow) (s : List Char) :
    operatorOf (spellingsAt op.precedence) (' ' :: (op.symbol.toList ++ ' ' :: s)) =
      .accepted op (' ' :: s) := by
  have read (w : String) (op : BinaryOp) (hplain : isPlain w = true)
      (hdark : StartsDark (w.toList ++ ' ' :: s)) (hletters : w.toList.all Char.isAlpha = true) :
      operatorOf [(w, op)] (' ' :: (w.toList ++ ' ' :: s)) = .accepted op (' ' :: s) := by
    change (if w.toList.all Char.isAlpha then _ else _ : Parser BinaryOp) _ = _
    rw [if_pos hletters]
    have hletter : ∀ c ∈ (' ' :: s).head?, ¬ c.isAlpha := by
      rintro _ ⟨⟩
      decide
    have hword := keyword_append hplain isBlank_space rfl hdark hletter
    exact (bind_of_accepted hword).trans rfl
  cases op with
  | pow => exact absurd rfl hop
  | mod => exact read "MOD" .mod (by decide) (startsDark_cons (by decide)) (by decide)
  | and => exact read "AND" .and (by decide) (startsDark_cons (by decide)) (by decide)
  | or => exact read "OR" .or (by decide) (startsDark_cons (by decide)) (by decide)
  | xor => exact read "XOR" .xor (by decide) (startsDark_cons (by decide)) (by decide)
  | eqv => exact read "EQV" .eqv (by decide) (startsDark_cons (by decide)) (by decide)
  | imp => exact read "IMP" .imp (by decide) (startsDark_cons (by decide)) (by decide)
  | _ => rfl

/-- The first character is no sign and no blank. -/
def StartsUnsigned (s : List Char) : Prop := ∀ c ∈ s.head?, c ≠ '-' ∧ c ≠ '+' ∧ ¬ Text.isBlank c

theorem symbol_of_starts {sign : String} {c : Char} (hsign : sign.toList = [c])
    (hlead : IsBlank lead) (hdark : StartsDark s) (h : ∀ d ∈ s.head?, d ≠ c) :
    symbol sign (lead ++ s) = .refused s := by
  refine symbol_of_unlike hlead hdark ?_
  rw [hsign]
  rintro ⟨rest, rfl⟩
  exact h c rfl rfl

theorem Stops.not_accepts_power (h : Stops p s) (hp : p ≤ 13) : accepts (symbol "^") s = false := by
  cases h with
  | nil | close | comma => rfl
  | @operator op hop s =>
    obtain ⟨c, more, hc, hblank, -, -⟩ := exists_symbol_eq_cons op
    refine accepts_of_refused (t := op.symbol.toList ++ ' ' :: s) ?_
    have hdark : StartsDark (op.symbol.toList ++ ' ' :: s) := by
      rw [hc]
      exact startsDark_cons hblank
    have hunlike : ∀ d ∈ (op.symbol.toList ++ ' ' :: s).head?, d ≠ '^' := by
      rintro d hd rfl
      cases op <;> first | exact absurd hop (by simp [BinaryOp.precedence]; omega) | cases hd
    exact symbol_of_starts rfl isBlank_space hdark hunlike

/-! ## How a level goes on -/

/-- An operator and the operand after it. -/
def joinStep (operator : Parser BinaryOp) (operand : Parser (Expr Float)) :
    Parser (List (BinaryOp × Expr Float) × Bool) := do
  match ← attempt operator with
  | some op => return ([(op, ← operand)], true)
  | none => return ([], false)

/-- The sign of the power and the exponent after it. -/
def powerStep (inner : Parser (Expr Float)) : Parser (List (Expr Float) × Bool) := do
  match ← attempt (symbol "^") with
  | some _ => return ([← exponentExpr inner], true)
  | none => return ([], false)

/-- A mark, as long as one stands here. -/
def markStep {α β : Type} (marker : Parser α) (item : α → β) : Parser (List β × Bool) := do
  match ← attempt marker with
  | some a => return ([item a], true)
  | none => return ([], false)

theorem eq_markStep {α β : Type} {marker : Parser α} (item : α → β)
    {f : Option α → Parser (List β × Bool)} (hsome : ∀ a, f (some a) = Pure.pure ([item a], true))
    (hnone : f none = Pure.pure ([], false)) : (attempt marker >>= f) = markStep marker item := by
  rw [markStep]
  congr 1
  funext found
  cases found with
  | none => exact hnone
  | some a => exact hsome a

theorem counted_eq (marker : Parser String) :
    counted marker = List.length <$> repeated (markStep marker fun _ => ()) :=
  congrArg (fun step => List.length <$> repeated step) (eq_markStep _ (fun _ => rfl) rfl)

theorem negationExpr_eq (inner : Parser (Expr Float)) :
    negationExpr inner = repeated (markStep (symbol "-" <|> symbol "+") id) >>= fun signs =>
      (signs.count "-").repeat (.unary .neg) <$> powerExpr inner := by
  rw [negationExpr, eq_markStep id (fun _ => rfl) rfl]
  rfl

theorem repeated_markStep_cons {α β : Type} {marker : Parser α} {item : α → β} {a : α}
    {items : List β} (h : marker s = .accepted a t) (hlt : t.length < s.length)
    (hmore : repeated (markStep marker item) t = .accepted items rest) :
    repeated (markStep marker item) s = .accepted (item a :: items) rest := by
  have hstep : markStep marker item s = .accepted ([item a], true) t :=
    bind_of_accepted (attempt_of_accepted h)
  exact repeated_cons hstep hlt hmore

theorem repeated_markStep_nil {α β : Type} {marker : Parser α} (item : α → β)
    (h : accepts marker s = false) : repeated (markStep marker item) s = .accepted [] s :=
  repeated_last (bind_of_accepted (attempt_of_not_accepts h))

theorem counted_of_not_accepts {marker : Parser String} (h : accepts marker s = false) :
    counted marker s = .accepted 0 s := by
  rw [counted_eq]
  exact map_of_accepted (repeated_markStep_nil _ h)

theorem counted_succ {marker : Parser String} {found : String} {n : Nat}
    (h : marker s = .accepted found t) (hlt : t.length < s.length)
    (hmore : counted marker t = .accepted n rest) : counted marker s = .accepted (n + 1) rest := by
  rw [counted_eq] at hmore ⊢
  obtain ⟨marks, t', hmarks, hcount⟩ := exists_of_bind hmore
  obtain ⟨rfl, rfl⟩ := Outcome.accepted.inj hcount
  exact map_of_accepted (repeated_markStep_cons h hlt hmarks)

/-- What a level that joins operands does behind the first of them. -/
def resume (inner : Parser (Expr Float)) (p : Nat) (first : Expr Float) : Parser (Expr Float) :=
  if p = 13 then (fun exponents => exponents.foldl (.binary .pow) first) <$> repeated (powerStep inner)
  else (fun others => others.foldl (fun left (op, right) => .binary op left right) first) <$>
    repeated (joinStep (operatorOf (spellingsAt p)) (level inner (p + 1)))

theorem joins_precedence (op : BinaryOp) : joins op.precedence = true := by
  cases op <;> rfl

theorem exists_precedence_of_joins (h : joins p = true) : ∃ op : BinaryOp, op.precedence = p := by
  obtain ⟨op, -, hop⟩ := List.any_eq_true.1 h
  exact ⟨op, eq_of_beq hop⟩

theorem lt_of_joins (h : joins p = true) : 0 < p ∧ (p < 12 ∨ p = 13) := by
  obtain ⟨op, rfl⟩ := exists_precedence_of_joins h
  cases op <;> decide

theorem level_of_next (hp : joins p = true) (h : level inner (p + 1) s = .accepted e t) :
    level inner p s = resume inner p e t := by
  obtain ⟨op, rfl⟩ := exists_precedence_of_joins hp
  cases op <;> exact bind_of_accepted h

theorem resume_of_stops (hp : joins p = true) (h : Stops p rest) :
    resume inner p e rest = .accepted e rest := by
  rw [resume]
  split
  next hpower =>
    have hstep : powerStep inner rest = .accepted ([], false) rest :=
      bind_of_accepted (attempt_of_not_accepts (h.not_accepts_power (by omega)))
    exact map_of_accepted (repeated_last hstep)
  next hpower =>
    have hlt : p < 12 := (lt_of_joins hp).2.resolve_right hpower
    have hstep : joinStep (operatorOf (spellingsAt p)) (level inner (p + 1)) rest =
        .accepted ([], false) rest :=
      bind_of_accepted (attempt_of_not_accepts (h.not_accepts_operator (Nat.le_refl p) hlt))
    exact map_of_accepted (repeated_last hstep)

/-- An exponent without a sign. -/
theorem exponentExpr_of_atom (hlead : IsBlank lead) (hs : StartsUnsigned s)
    (h : atom inner (lead ++ s) = .accepted e rest) :
    exponentExpr inner (lead ++ s) = .accepted e rest := by
  have hminus : symbol "-" (lead ++ s) = .refused s :=
    symbol_of_starts rfl hlead (fun c hc => (hs c hc).2.2) fun c hc => (hs c hc).1
  have hsigns := counted_of_not_accepts (accepts_of_refused hminus)
  exact (bind_of_accepted hsigns).trans ((bind_of_accepted h).trans rfl)

theorem exponentExpr_neg (hlead : IsBlank lead)
    (h : exponentExpr inner s = .accepted e rest) :
    exponentExpr inner (lead ++ '-' :: s) = .accepted (.unary .neg e) rest := by
  obtain ⟨signs, t, hsigns, h₁⟩ := exists_of_bind h
  obtain ⟨base, t', hbase, h₂⟩ := exists_of_bind h₁
  obtain ⟨rfl, rfl⟩ := Outcome.accepted.inj h₂
  have hminus : symbol "-" (lead ++ '-' :: s) = .accepted "-" s :=
    symbol_append hlead (startsDark_cons (by decide))
  have shorter : s.length < (lead ++ '-' :: s).length := by
    rw [List.length_append, List.length_cons]
    omega
  have hmore := counted_succ hminus shorter hsigns
  exact (bind_of_accepted hmore).trans ((bind_of_accepted hbase).trans rfl)

/-- The right operand of an operator; that of the power may have signs of its own. -/
def rightOperand (inner : Parser (Expr Float)) (op : BinaryOp) : Parser (Expr Float) :=
  if op = .pow then exponentExpr inner else level inner (op.precedence + 1)

/-- Behind the left operand stand an operator and the right operand. -/
theorem resume_step (hright : rightOperand inner op (' ' :: (w ++ rest)) = .accepted right rest)
    (h : resume inner op.precedence (.binary op left right) rest = .accepted e t) :
    resume inner op.precedence left (' ' :: (op.symbol.toList ++ ' ' :: (w ++ rest))) =
      .accepted e t := by
  have shorter : rest.length < (' ' :: (op.symbol.toList ++ ' ' :: (w ++ rest))).length := by
    simp only [List.length_cons, List.length_append]
    omega
  rw [rightOperand] at hright
  by_cases hpow : op = .pow
  · subst hpow
    rw [if_pos rfl] at hright
    obtain ⟨exponents, t', hexponents, hfold⟩ := exists_of_bind h
    obtain ⟨rfl, rfl⟩ := Outcome.accepted.inj hfold
    have hpower : symbol "^" (' ' :: ("^".toList ++ ' ' :: (w ++ rest))) =
        .accepted "^" (' ' :: (w ++ rest)) :=
      symbol_append isBlank_space (startsDark_cons (by decide))
    have hstep : powerStep inner (' ' :: ("^".toList ++ ' ' :: (w ++ rest))) =
        .accepted ([right], true) rest := by
      refine (bind_of_accepted (attempt_of_accepted hpower)).trans ?_
      exact (bind_of_accepted hright).trans rfl
    exact map_of_accepted (repeated_cons hstep shorter hexponents)
  · have hne : op.precedence ≠ 13 := by
      cases op <;> first | exact absurd rfl hpow | decide
    rw [if_neg hpow] at hright
    rw [resume, if_neg hne] at h ⊢
    obtain ⟨others, t', hothers, hfold⟩ := exists_of_bind h
    obtain ⟨rfl, rfl⟩ := Outcome.accepted.inj hfold
    have hstep : joinStep (operatorOf (spellingsAt op.precedence)) (level inner (op.precedence + 1))
        (' ' :: (op.symbol.toList ++ ' ' :: (w ++ rest))) =
          .accepted ([(op, right)], true) rest := by
      refine (bind_of_accepted (attempt_of_accepted (operatorOf_append hpow _))).trans ?_
      exact (bind_of_accepted hright).trans rfl
    exact map_of_accepted (repeated_cons hstep shorter hothers)

/-! ## Operators before an operand -/

/-- What has no sign in front is read without one. -/
theorem level_negation (hlead : IsBlank lead) (hs : StartsUnsigned s)
    (h : level inner 13 (lead ++ s) = .accepted e rest) :
    level inner 12 (lead ++ s) = .accepted e rest := by
  have hdark : StartsDark s := fun c hc => (hs c hc).2.2
  have hminus : symbol "-" (lead ++ s) = .refused s :=
    symbol_of_starts rfl hlead hdark fun c hc => (hs c hc).1
  have hplus : symbol "+" (lead ++ s) = .refused s :=
    symbol_of_starts rfl hlead hdark fun c hc => (hs c hc).2.1
  have hno : accepts (symbol "-" <|> symbol "+") (lead ++ s) = false :=
    accepts_of_refused ((orElse_of_refused hminus).trans hplus)
  change negationExpr inner (lead ++ s) = _
  rw [negationExpr_eq]
  exact (bind_of_accepted (repeated_markStep_nil id hno)).trans (map_of_accepted h)

theorem level_neg (hlead : IsBlank lead) (h : level inner 12 s = .accepted e rest) :
    level inner 12 (lead ++ '-' :: s) = .accepted (.unary .neg e) rest := by
  change negationExpr inner _ = _ at h ⊢
  rw [negationExpr_eq] at h ⊢
  obtain ⟨signs, t, hsigns, h₁⟩ := exists_of_bind h
  obtain ⟨base, t', hbase, h₂⟩ := exists_of_bind h₁
  obtain ⟨rfl, rfl⟩ := Outcome.accepted.inj h₂
  have hminus : symbol "-" (lead ++ '-' :: s) = .accepted "-" s :=
    symbol_append hlead (startsDark_cons (by decide))
  have shorter : s.length < (lead ++ '-' :: s).length := by
    rw [List.length_append, List.length_cons]
    omega
  have hmore := repeated_markStep_cons (orElse_of_accepted hminus) shorter hsigns
  refine (bind_of_accepted hmore).trans ((map_of_accepted hbase).trans ?_)
  rw [id, List.count_cons_self]
  rfl

/-- What does not begin with `NOT` is read without it. -/
theorem level_relational (hno : accepts (keyword "NOT") s = false)
    (h : level inner 7 s = .accepted e rest) : level inner 6 s = .accepted e rest := by
  exact (bind_of_accepted (counted_of_not_accepts hno)).trans ((bind_of_accepted h).trans rfl)

theorem level_not (hlead : IsBlank lead) (h : level inner 6 (' ' :: s) = .accepted e rest) :
    level inner 6 (lead ++ ("NOT".toList ++ ' ' :: s)) = .accepted (.unary .not e) rest := by
  obtain ⟨words, t, hwords, h₁⟩ := exists_of_bind h
  obtain ⟨base, t', hbase, h₂⟩ := exists_of_bind h₁
  obtain ⟨rfl, rfl⟩ := Outcome.accepted.inj h₂
  have hnot : keyword "NOT" (lead ++ ("NOT".toList ++ ' ' :: s)) =
      .accepted (String.ofList "NOT".toList) (' ' :: s) := by
    refine keyword_append (by decide) hlead rfl (startsDark_cons (by decide)) ?_
    rintro _ ⟨⟩
    decide
  have shorter : (' ' :: s).length < (lead ++ ("NOT".toList ++ ' ' :: s)).length := by
    rw [List.length_append, List.length_append]
    have hthree : "NOT".toList.length = 3 := rfl
    omega
  have hmore := counted_succ hnot shorter hwords
  exact (bind_of_accepted hmore).trans ((bind_of_accepted hbase).trans rfl)

end LineBasic.Grammar
