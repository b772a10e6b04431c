import LineBasic.Proofs.Grammar.BorderWords

/-!
# Expressions before an arm

An expression that ends before the border is read in front of the other border as well, unless it
ends at a parenthesis that opens no arguments (`Grammar.OpensArguments`). Behind a name such a
parenthesis is left alone in front of one border, and might be taken for arguments in front of the
other one. Between two operands the operator rules it out, and at the end what follows the
expression does. Expressions nest, so the whole is by induction on the length of the text before the
border (`Grammar.carries_expression`).
-/

namespace LineBasic.Grammar

open LineBasic.Parser

variable {x y v s t rest : List Char} {n : Nat} {w : String} {Q R : List Char → Prop}

/-! ## What a parser begins with -/

/-- The first character that is not blank. -/
def lead? (s : List Char) : Option Char := (s.dropWhile Text.isBlank).head?

theorem lead?_append {lead dark : List Char} (hlead : IsBlank lead) (hdark : StartsDark dark) :
    lead? (lead ++ dark) = dark.head? := by
  have hblanks := blanks_append hlead hdark
  rw [lead?, (Outcome.accepted.inj hblanks).2]

/-- What is read behind blanks. -/
theorem exists_of_after_blanks {α : Type} {f : List Char → Parser α} {a : α}
    (h : (blanks >>= f) s = .accepted a rest) :
    ∃ lead dark, lead? s = dark.head? ∧ f lead dark = .accepted a rest := by
  obtain ⟨lead, dark, rfl, hlead, hdark, -⟩ := exists_of_blanks s
  exact ⟨lead, dark, lead?_append hlead hdark, (after_blanks hlead hdark).symm.trans h⟩

theorem lead?_of_symbol {c : Char} {more : List Char} {found : String} (hw : w.toList = c :: more)
    (h : symbol w s = .accepted found rest) : lead? s = some c := by
  obtain ⟨lead, dark, hlead, h⟩ := exists_of_after_blanks h
  rw [exactly, hw] at h
  split at h
  next hprefix =>
    obtain ⟨z, rfl⟩ := List.isPrefixOf_iff_prefix.1 hprefix
    exact hlead
  next => cases h

theorem lead?_of_accepts_symbol {c : Char} {more : List Char} (hw : w.toList = c :: more)
    (h : accepts (symbol w) s = true) : lead? s = some c := by
  obtain ⟨found, rest, h⟩ := exists_of_accepts h
  exact lead?_of_symbol hw h

theorem lead?_of_keyword {d : Char} {more : List Char} {found : String} (hplain : isPlain w = true)
    (hw : w.toList = d :: more) (h : keyword w s = .accepted found rest) :
    ∃ c, lead? s = some c ∧ foldCase c = foldCase d := by
  obtain ⟨lead, dark, hlead, h⟩ := exists_of_after_blanks h
  obtain ⟨_, after, hword, -⟩ := exists_of_bind (of_wholly h)
  obtain ⟨front, rfl, -, hfront⟩ := begins_of_word hplain hword
  rw [hw] at hfront
  rcases front with _ | ⟨c, front⟩
  · cases hfront
  · exact ⟨c, hlead, (List.cons.inj hfront).1⟩

theorem lead?_of_spelledName {dark text : List Char} (hlead : lead? s = dark.head?)
    (h : spelledName dark = .accepted text rest) : ∃ c, lead? s = some c ∧ c.isAlpha := by
  obtain ⟨rfl, hspelled⟩ := of_spelledName h
  obtain ⟨c, more, rfl, hc⟩ := hspelled.exists_eq_cons
  exact ⟨c, hlead, hc⟩

theorem lead?_of_variableName {name : Name} (h : variableName s = .accepted name rest) :
    ∃ c, lead? s = some c ∧ c.isAlpha := by
  obtain ⟨lead, dark, hlead, h⟩ := exists_of_after_blanks h
  obtain ⟨text, _, htext, -⟩ := exists_of_bind (of_wholly h)
  exact lead?_of_spelledName hlead htext

theorem lead?_of_intrinsicName {f : Intrinsic} (h : intrinsicName s = .accepted f rest) :
    ∃ c, lead? s = some c ∧ c.isAlpha := by
  obtain ⟨lead, dark, hlead, h⟩ := exists_of_after_blanks h
  obtain ⟨text, _, htext, -⟩ := exists_of_bind (of_wholly h)
  exact lead?_of_spelledName hlead htext

theorem lead?_of_functionName {name : Name} (h : functionName s = .accepted name rest) :
    ∃ c, lead? s = some c ∧ c.isAlpha := by
  obtain ⟨lead, dark, hlead, h⟩ := exists_of_after_blanks h
  obtain ⟨_, after, hword, -⟩ := exists_of_bind h
  obtain ⟨front, rfl, -, hfront⟩ := begins_of_word (by decide) hword
  rcases front with _ | ⟨c, front⟩
  · cases hfront
  · have hc : foldCase c = 'f' := (List.cons.inj hfront).1
    exact ⟨c, hlead, isAlpha_of_foldCase (by rw [hc]; decide) (by rw [hc]; decide)⟩

theorem lead?_of_quoted {text : String} (h : quoted s = .accepted text rest) :
    lead? s = some '"' := by
  obtain ⟨lead, dark, hlead, h⟩ := exists_of_after_blanks h
  obtain ⟨c, _, hc, -⟩ := exists_of_bind h
  obtain ⟨rfl, hquote⟩ := of_satisfy hc
  rw [hlead, eq_of_beq hquote]
  rfl

/-- No remark, no colon and no `ELSE` begins with the character. -/
theorem not_lead?_of_atStatementEnd {c : Char} (h : atStatementEnd s = true)
    (hwhite : ¬ Text.isWhite c) (hcolon : c ≠ ':') (hquote : c ≠ '\'') (helse : foldCase c ≠ 'e') :
    lead? s ≠ some c := by
  obtain ⟨lead, dark, rfl, hlead, hdark, -⟩ := exists_of_blanks s
  rw [lead?_append hlead hdark]
  intro hhead
  obtain ⟨more, rfl⟩ := List.head?_eq_some_iff.1 hhead
  have htrim : Text.trimStart (lead ++ c :: more) = c :: more := by
    rw [Text.trimStart,
      List.dropWhile_append_of_pos fun d hd => Text.isWhite_of_isBlank (hlead d hd)]
    exact List.dropWhile_cons_of_neg hwhite
  have hno : accepts (keyword "ELSE") (c :: more) = false := by
    refine accepts_of_refused (keyword_of_head (by decide) rfl hdark ?_)
    rintro _ ⟨⟩
    exact helse
  rw [atStatementEnd, htrim] at h
  split at h
  next heq => cases heq
  next heq => exact hcolon (List.cons.inj heq).1
  next heq => exact hquote (List.cons.inj heq).1
  next => exact absurd h (by rw [hno]; decide)

/-! ## Arguments -/

/-- A parenthesis that stands here begins arguments. -/
def OpensArguments (r : List Char) : Prop :=
  accepts (symbol "(") r = true → accepts (arguments expression) r = true

theorem opensArguments_of_lead? (h : lead? s ≠ some '(') : OpensArguments s :=
  fun hopen => absurd (lead?_of_accepts_symbol (c := '(') rfl hopen) h

theorem opensArguments_of_symbol {c : Char} {more : List Char} (hw : w.toList = c :: more)
    (hc : c ≠ '(') (h : accepts (symbol w) s = true) : OpensArguments s := by
  refine opensArguments_of_lead? fun hlead => ?_
  rw [lead?_of_accepts_symbol hw h] at hlead
  exact hc (Option.some.inj hlead)

theorem steady_open (hb : Border x y) : Steady x y (symbol "(") := steady_symbol hb (by decide)

theorem steady_comma (hb : Border x y) : Steady x y (symbol ",") := steady_symbol hb (by decide)

theorem steady_close (hb : Border x y) : Steady x y (symbol ")") := steady_symbol hb (by decide)

theorem carries_arguments (hb : Border x y) (h : Carries x y n OpensArguments expression) :
    Carries x y (n + 1) Q (arguments expression) := by
  have := consumes_symbol (w := "(") (by decide)
  have := consumes_symbol (w := ",") (by decide)
  refine (steady_open hb).behind fun _ => ?_
  refine Carries.bind (R := fun r => accepts (symbol ")") r = true) ?_
    (fun args => (steady_close hb).before fun _ => .pure args) ?_
  · refine .separated1 (steady_comma hb) h (fun r hr => ⟨?_, ?_⟩) fun r hr => ?_
    · rw [← Bool.not_eq_true]
      intro hcomma
      have hlead := lead?_of_accepts_symbol (c := ',') rfl hcomma
      rw [lead?_of_accepts_symbol (c := ')') rfl hr] at hlead
      cases hlead
    · exact opensArguments_of_symbol (c := ')') rfl (by decide) hr
    · exact opensArguments_of_symbol (c := ',') rfl (by decide) hr
  · intro args t b rest hthen _
    obtain ⟨_, _, hclose, -⟩ := exists_of_bind hthen
    exact accepts_of_accepted hclose

/-- Arguments that may be missing. -/
theorem carries_optional_arguments (hb : Border x y) (h : Carries x y n OpensArguments expression) :
    Carries x y (n + 1) OpensArguments (optional (arguments expression)) :=
  .optional_of_mark (steady_open hb) (carries_arguments hb h) fun _ hr hopen => hr hopen

/-! ## Operands -/

/-- White space is skipped in front of the border. -/
theorem trimStart_append (hb : Border x y) (v : List Char) :
    ∃ v', Text.trimStart (v ++ x) = v' ++ x ∧ Text.trimStart (v ++ y) = v' ++ y := by
  have hwhite : Steady x y (takeWhile Text.isWhite) := steady_takeWhile hb fun c halpha hwhite => by
    rw [isAlpha_iff] at halpha
    simp only [Text.isWhite, Bool.or_eq_true, Bool.and_eq_true, decide_eq_true_eq, beq_iff_eq]
      at hwhite
    omega
  obtain ⟨v', hx, -, hy⟩ := hwhite.exists_suffix (v := v) rfl
  exact ⟨v', hx, (Outcome.accepted.inj hy).2⟩

theorem head?_trimStart (hb : Border x y) (v : List Char) :
    (Text.trimStart (v ++ x)).head? = (Text.trimStart (v ++ y)).head? := by
  obtain ⟨v', hx, hy⟩ := trimStart_append hb v
  rw [hx, hy, hb.head?_append v']

theorem subscripts?_eq (inner : Parser (Expr Float)) (s : List Char) :
    subscripts? inner s = if (Text.trimStart s).head? = some '(' then (some <$> arguments inner) s
      else .accepted none s := by
  refine (bind_of_accepted (p := remaining) rfl).trans ?_
  rcases h : Text.trimStart s with _ | ⟨c, more⟩
  · rfl
  · by_cases hc : c = '('
    · subst hc
      exact (if_pos (c := ('(' :: more).head? = some '(') rfl).symm
    · rw [if_neg (by simpa using hc)]
      refine congrFun (g := (Pure.pure none : Parser (Option (List (Expr Float))))) ?_ s
      split
      next heq => exact absurd (List.cons.inj heq).1 hc
      next => rfl

theorem carries_subscripts? (hb : Border x y) (h : Carries x y n OpensArguments expression) :
    Carries x y (n + 1) Q (subscripts? expression) := by
  intro v v' found hn hQ hx
  rw [subscripts?_eq, head?_trimStart hb] at hx
  rw [subscripts?_eq]
  split at hx
  next hopen =>
    rw [if_pos hopen]
    exact (carries_arguments hb h).map _ hn hQ hx
  next hopen =>
    obtain ⟨rfl, hv⟩ := Outcome.accepted.inj hx
    rw [if_neg hopen, List.append_cancel_right hv]

/-- A name with the subscripts behind it. -/
theorem carries_named {α : Type} (hb : Border x y) (h : Carries x y n OpensArguments expression)
    {f : Name → Option (List (Expr Float)) → Parser α}
    (hf : ∀ name found, ∃ a, f name found = Pure.pure a) :
    Carries x y (n + 1) Q (variableName >>= fun name => subscripts? expression >>= f name) := by
  have pure (name : Name) (found : Option (List (Expr Float))) : Steady x y (f name found) := by
    obtain ⟨a, ha⟩ := hf name found
    exact ha ▸ .pure a
  have (name : Name) (found : Option (List (Expr Float))) : (f name found).Advances := by
    obtain ⟨a, ha⟩ := hf name found
    exact ha ▸ inferInstance
  exact (carries_variableName hb).seq fun name =>
    (carries_subscripts? hb h).seq fun found => (pure name found).carries

theorem carries_target (hb : Border x y) (h : Carries x y n OpensArguments expression) :
    Carries x y (n + 1) Q target :=
  carries_named hb h fun name found => by cases found <;> exact ⟨_, rfl⟩

/-- A variable is no intrinsic function, in front of either border. -/
theorem refuses_intrinsicName_of_variableName (hb : Border x y) {place : List Char} {name : Name}
    {u : List Char} (hno : intrinsicName (v ++ x) = .refused place)
    (h : variableName (v ++ x) = .accepted name (u ++ x)) :
    ∃ place', intrinsicName (v ++ y) = .refused place' := by
  have hplain := isPlainName_of_variableName h (accepts_of_refused hno)
  have hy := carries_variableName hb (Q := fun _ => True) (Nat.lt_succ_self _) trivial h
  obtain ⟨lead, dark, hv, hlead, hdark, -⟩ := exists_of_blanks (v ++ y)
  rw [hv] at hy ⊢
  obtain ⟨text, t, htext, hname⟩ :=
    exists_of_bind (of_wholly ((after_blanks hlead hdark).symm.trans hy))
  dsimp only at hname
  split at hname
  next =>
    obtain ⟨rfl, -⟩ := Outcome.accepted.inj hname
    refine ⟨dark, (after_blanks hlead hdark).trans (wholly_of_refused (t := t) ?_)⟩
    refine (bind_of_accepted htext).trans ?_
    have hnone : Intrinsic.ofName? (Text.upper (String.ofList text)) = none := hplain.notIntrinsic
    rw [hnone]
    rfl
  next => cases hname

theorem carries_userCall (hb : Border x y) (h : Carries x y n OpensArguments expression) :
    Carries x y (n + 1) OpensArguments (userCall expression) :=
  (carries_functionName hb).seq fun _ => (carries_optional_arguments hb h).map _

theorem carries_namedExpr (hb : Border x y) (h : Carries x y n OpensArguments expression) :
    Carries x y (n + 1) OpensArguments (namedExpr expression) := by
  intro v v' e hn hQ hx
  obtain ⟨found, t, hfound, hthen⟩ := exists_of_bind hx
  rcases of_optional hfound with ⟨f, rfl, hf⟩ | ⟨rfl, rfl, place, hno⟩
  · have hcall : Carries x y (n + 1) OpensArguments
        ((fun args : Option (List (Expr Float)) => Expr.intrinsic f (args.getD [])) <$>
          optional (arguments expression)) := (carries_optional_arguments hb h).map _
    obtain ⟨u, rfl, hu⟩ := exists_before hf (Advances.suffix_of_accepted
      (p := (fun args : Option (List (Expr Float)) => Expr.intrinsic f (args.getD [])) <$>
        optional (arguments expression)) hthen)
    have hy := carries_intrinsicName hb (Q := fun _ => True) hn trivial hf
    refine (bind_of_accepted (optional_of_accepted hy)).trans ?_
    exact hcall (Nat.lt_of_le_of_lt hu.length_le hn) hQ hthen
  · obtain ⟨name, t, hname, hrest⟩ := exists_of_bind hthen
    have hsuffix : v' ++ x <:+ t := by
      obtain ⟨found, t', hfound', heq⟩ := exists_of_bind hrest
      have ht' : v' ++ x = t' := by
        cases found <;> exact (Outcome.accepted.inj heq).2.symm
      exact ht' ▸ Advances.suffix_of_accepted hfound'
    obtain ⟨u, rfl, -⟩ := exists_before hname hsuffix
    obtain ⟨place', hy⟩ := refuses_intrinsicName_of_variableName hb hno hname
    refine (bind_of_accepted (optional_of_refused hy)).trans (carries_named hb h ?_ hn hQ hthen)
    intro name found
    cases found <;> exact ⟨_, rfl⟩

theorem carries_enclosed (hb : Border x y) (h : Carries x y n OpensArguments expression) :
    Carries x y (n + 1) Q (enclosed expression) := by
  have := consumes_symbol (w := "(") (by decide)
  refine (steady_open hb).behind fun _ =>
    Carries.bind h (fun e => (steady_close hb).before fun _ => .pure e) ?_
  intro e t b rest hthen _
  obtain ⟨_, _, hclose, -⟩ := exists_of_bind hthen
  exact opensArguments_of_symbol (c := ')') rfl (by decide) (accepts_of_accepted hclose)

theorem lead?_of_userCall {inner : Parser (Expr Float)} {e : Expr Float}
    (h : userCall inner s = .accepted e rest) : ∃ c, lead? s = some c ∧ c.isAlpha := by
  obtain ⟨name, _, hname, -⟩ := exists_of_bind h
  exact lead?_of_functionName hname

theorem lead?_of_namedExpr {inner : Parser (Expr Float)} {e : Expr Float}
    (h : namedExpr inner s = .accepted e rest) : ∃ c, lead? s = some c ∧ c.isAlpha := by
  obtain ⟨found, t, hfound, hthen⟩ := exists_of_bind h
  rcases of_optional hfound with ⟨f, -, hf⟩ | ⟨rfl, rfl, -⟩
  · exact lead?_of_intrinsicName hf
  · obtain ⟨name, _, hname, -⟩ := exists_of_bind hthen
    exact lead?_of_variableName hname

theorem refuses_userCall (hb : Border x y) : Refuses x y (userCall expression) :=
  (refuses_functionName hb).bind fun _ => .bind (.optional _) fun _ => .pure _

theorem carries_atom (hb : Border x y) (h : Carries x y n OpensArguments expression) :
    Carries x y (n + 1) OpensArguments (atom expression) := by
  have hcall : Carries x y (n + 1) OpensArguments
      ((userCall expression).orElse (namedExpr expression)) :=
    .orElse (carries_userCall hb h) (carries_namedExpr hb h) fun _ _ hx _ => refuses_userCall hb hx
  have henclosed : Carries x y (n + 1) OpensArguments
      ((enclosed expression).orElse ((userCall expression).orElse (namedExpr expression))) := by
    refine .orElse (carries_enclosed hb h) hcall fun v place hx hnext => ?_
    obtain ⟨e, t, he⟩ := exists_of_accepts hnext
    -- no name begins with a parenthesis
    rcases steady_open hb v with ⟨_, _, -, hopen, -⟩ | ⟨_, place', -, hy⟩
    · have hlead := lead?_of_symbol (c := '(') rfl hopen
      have hletter : ∃ c, lead? (v ++ x) = some c ∧ c.isAlpha := by
        rcases of_orElse he with he | he
        · exact lead?_of_userCall he
        · exact lead?_of_namedExpr he
      obtain ⟨c, hc, halpha⟩ := hletter
      rw [hlead] at hc
      obtain rfl := Option.some.inj hc
      exact absurd halpha (by decide)
    · exact ⟨place', bind_of_refused hy⟩
  refine .orElse ((carries_number hb).seq fun _ => .pure _) ?_ fun v place hx _ =>
    (refuses_number hb).bind (fun _ => .pure _) hx
  exact .orElse ((carries_quoted hb).map _) henclosed fun v place hx _ =>
    (refuses_quoted hb).bind (fun _ => .pure _) hx

/-! ## Levels -/

theorem steady_minus (hb : Border x y) : Steady x y (symbol "-") := steady_symbol hb (by decide)

theorem steady_sign (hb : Border x y) : Steady x y (symbol "-" <|> symbol "+") :=
  (steady_minus hb).orElse (steady_symbol hb (by decide))

/-- Marks that may be repeated. -/
theorem carries_marks {α β : Type} {mark : Parser α} [mark.Advances] [mark.Consumes]
    (hmark : Steady x y mark) (item : α → β) : Carries x y n Q (repeated (markStep mark item)) :=
  have hadvances : (markStep mark item).Advances := inferInstance
  .repeated_attempt (R := fun _ => True) hmark (progresses_markStep item) hadvances rfl
    (by rintro b s items goesOn rest ⟨⟩; rfl) (fun _ => .pure _) (fun _ _ => trivial)
    fun _ _ => trivial

theorem carries_counted {mark : Parser String} [mark.Advances] [mark.Consumes]
    (hmark : Steady x y mark) : Carries x y n Q (counted mark) := by
  rw [counted_eq]
  exact (carries_marks hmark _).map _

theorem carries_exponentExpr (hb : Border x y) (h : Carries x y n OpensArguments expression) :
    Carries x y (n + 1) OpensArguments (exponentExpr expression) := by
  have := consumes_symbol (w := "-") (by decide)
  exact (carries_counted (steady_minus hb)).seq fun _ => (carries_atom hb h).map _

theorem powerExpr_eq (inner : Parser (Expr Float)) : powerExpr inner = atom inner >>= fun base =>
    (fun exponents => exponents.foldl (.binary .pow) base) <$> repeated (powerStep inner) := rfl

theorem carries_powerExpr (hb : Border x y) (h : Carries x y n OpensArguments expression) :
    Carries x y (n + 1) OpensArguments (powerExpr expression) := by
  have hadvances : (powerStep expression).Advances := inferInstance
  have hprogress : Progresses (powerStep expression) := (LoopStep.power inferInstance).progresses
  have hpower : Steady x y (symbol "^") := steady_symbol hb (by decide)
  have hgoesOn (b : String) (s : List Char) (items : List (Expr Float)) (goesOn : Bool)
      (rest : List Char) (h : (exponentExpr expression >>= fun e => Pure.pure ([e], true)) s =
        .accepted (items, goesOn) rest) : goesOn = true := by
    obtain ⟨e, t, -, heq⟩ := exists_of_bind h
    cases heq
    rfl
  have hafter (r : List Char) (hr : accepts (symbol "^") r = true) : OpensArguments r :=
    opensArguments_of_symbol (c := '^') rfl (by decide) hr
  have hmore : Carries x y (n + 1) OpensArguments (repeated (powerStep expression)) :=
    .repeated_attempt hpower hprogress hadvances rfl hgoesOn
      (fun _ => (carries_exponentExpr hb h).bind (R := OpensArguments) (fun _ => .pure _) (by
        rintro a t b rest ⟨⟩ hrest
        exact hrest)) (fun _ hr => hr) hafter
  rw [powerExpr_eq]
  exact .chain _ (marked_attempt rfl hgoesOn) hprogress (carries_atom hb h) hmore (fun _ hr => hr)
    hafter

theorem leftGrouped_eq (operator : Parser BinaryOp) (operand : Parser (Expr Float)) :
    leftGrouped operator operand = operand >>= fun first =>
      (fun others => others.foldl (fun left (op, right) => .binary op left right) first) <$>
        repeated (joinStep operator operand) := rfl

theorem steady_operatorOf (hb : Border x y) (p : Nat) :
    Steady x y (operatorOf (spellingsAt p)) := by
  have plain : ∀ o ∈ spellingsAt p, isClear o.1 = true ∧
      (o.1.toList.all Char.isAlpha = true ∨ o.1.toList.any Char.isAlpha = false) := by
    unfold spellingsAt
    split <;> decide
  refine .firstOf (List.forall_mem_map.2 fun o ho => ?_)
  obtain ⟨hclear, hletters⟩ := plain o ho
  dsimp only
  split
  next => exact (steady_keyword hb hclear).map _
  next hno => exact (steady_symbol hb (hletters.resolve_left hno)).map _

/-- No operator is a parenthesis. -/
theorem opensArguments_of_operator {p : Nat} (h : accepts (operatorOf (spellingsAt p)) s = true) :
    OpensArguments s := by
  have other : ∀ o ∈ spellingsAt p, isPlain o.1 = true ∧
      ∃ d more, o.1.toList = d :: more ∧ foldCase '(' ≠ foldCase d := by
    unfold spellingsAt
    split <;> simp [relationalSpellings] <;> decide
  refine opensArguments_of_lead? fun hlead => ?_
  obtain ⟨lead, dark, rfl, hblank, hdark, -⟩ := exists_of_blanks s
  rw [lead?_append hblank hdark] at hlead
  have hno := not_accepts_operatorOf hblank hdark fun o ho => by
    obtain ⟨hplain, d, more, hd, hne⟩ := other o ho
    refine ⟨hplain, d, more, hd, fun c hc => ?_⟩
    rw [hlead] at hc
    exact Option.some.inj hc ▸ hne
  rw [hno] at h
  cases h

theorem carries_leftGrouped (hb : Border x y) (p : Nat) {operand : Parser (Expr Float)}
    [operand.Advances] (h : Carries x y n OpensArguments operand) :
    Carries x y n OpensArguments (leftGrouped (operatorOf (spellingsAt p)) operand) := by
  have hadvances : (joinStep (operatorOf (spellingsAt p)) operand).Advances := inferInstance
  have hprogress : Progresses (joinStep (operatorOf (spellingsAt p)) operand) :=
    (LoopStep.join p inferInstance).progresses
  have hgoesOn (op : BinaryOp) (s : List Char) (items : List (BinaryOp × Expr Float))
      (goesOn : Bool) (rest : List Char) (h : (operand >>= fun e => Pure.pure ([(op, e)], true)) s =
        .accepted (items, goesOn) rest) : goesOn = true := by
    obtain ⟨e, t, -, heq⟩ := exists_of_bind h
    cases heq
    rfl
  have hmore : Carries x y n OpensArguments
      (repeated (joinStep (operatorOf (spellingsAt p)) operand)) :=
    .repeated_attempt (steady_operatorOf hb p) hprogress hadvances rfl hgoesOn
      (fun _ => h.map _) (fun _ hr => hr) fun _ hr => opensArguments_of_operator hr
  rw [leftGrouped_eq]
  exact .chain _ (marked_attempt rfl hgoesOn) hprogress h hmore (fun _ hr => hr)
    fun _ hr => opensArguments_of_operator hr

theorem carries_impExpr (hb : Border x y) (h : Carries x y n OpensArguments expression) :
    Carries x y (n + 1) OpensArguments (impExpr expression) := by
  have := consumes_keyword (w := "NOT") (by decide)
  have := consumes_symbol (w := "-") (by decide)
  have := consumes_symbol (w := "+") (by decide)
  have hnegation : Carries x y (n + 1) OpensArguments (negationExpr expression) := by
    have hsigns : (repeated (markStep (symbol "-" <|> symbol "+") id)).Advances :=
      .repeated inferInstance
    rw [negationExpr_eq]
    exact (carries_marks (steady_sign hb) id).seq fun _ => (carries_powerExpr hb h).map _
  have hrelational : Carries x y (n + 1) OpensArguments (relationalExpr expression) := by
    unfold relationalExpr additiveExpr modExpr intDivExpr multiplicativeExpr
    exact carries_leftGrouped hb 7 <| carries_leftGrouped hb 8 <| carries_leftGrouped hb 9 <|
      carries_leftGrouped hb 10 <| carries_leftGrouped hb 11 hnegation
  have hnot : Carries x y (n + 1) OpensArguments (notExpr expression) :=
    (carries_counted (steady_keyword hb (by decide))).seq fun _ => hrelational.map _
  unfold impExpr eqvExpr xorExpr orExpr andExpr
  exact carries_leftGrouped hb 1 <| carries_leftGrouped hb 2 <| carries_leftGrouped hb 3 <|
    carries_leftGrouped hb 4 <| carries_leftGrouped hb 5 hnot

/-- An expression is read up to the border in the same way, whichever of the texts stands there. -/
theorem carries_expression (hb : Border x y) (n : Nat) :
    Carries x y n OpensArguments expression := by
  induction n with
  | zero => exact fun _ _ _ hn => absurd hn (Nat.not_lt_zero _)
  | succ n ih =>
    have himp := carries_impExpr hb ih
    rwa [← (eq_expression_iff expression).2 rfl] at himp

end LineBasic.Grammar
