import LineBasic.Proofs.Grammar.BorderExpressions

/-!
# Commands before an arm

A command that ends before the border, where a statement may end (`Grammar.EndsStatement`), is read
in front of the other border as well. Most forms are a word and expressions with marks or words
between them, and each of these shows where the part before it ends. In a list of expressions with
no marks between them, as after `PRINT`, an expression ends where the next one begins
(`Grammar.carries_items`).
-/

namespace LineBasic.Grammar

open LineBasic.Parser

variable {x y v s t rest : List Char} {n : Nat} {w : String} {Q R : List Char → Prop}

/-! ## The end of a statement -/

/-- The statement has ended here. -/
def EndsStatement (r : List Char) : Prop := atStatementEnd r = true

theorem EndsStatement.opensArguments (h : EndsStatement s) : OpensArguments s :=
  opensArguments_of_lead?
    (not_lead?_of_atStatementEnd h (by decide) (by decide) (by decide) (by decide))

theorem EndsStatement.not_accepts_symbol {c : Char} {more : List Char} (h : EndsStatement s)
    (hw : w.toList = c :: more)
    (hc : ¬ Text.isWhite c ∧ c ≠ ':' ∧ c ≠ '\'' ∧ foldCase c ≠ 'e' := by decide) :
    accepts (symbol w) s = false := by
  obtain ⟨hwhite, hcolon, hquote, helse⟩ := hc
  rw [← Bool.not_eq_true]
  exact fun hopen => not_lead?_of_atStatementEnd h hwhite hcolon hquote helse
    (lead?_of_accepts_symbol hw hopen)

/-- Letters but that of `ELSE` do not stand at the end of a statement. -/
theorem EndsStatement.not_accepts_keyword {d : Char} {more : List Char} (h : EndsStatement s)
    (hplain : isPlain w = true) (hw : w.toList = d :: more)
    (hd : foldCase d ≠ 'k' ∧ (foldCase d).isAlpha ∧ foldCase d ≠ 'e' := by decide) :
    accepts (keyword w) s = false := by
  obtain ⟨hk, halpha, helse⟩ := hd
  rw [← Bool.not_eq_true]
  intro hkeyword
  obtain ⟨found, rest, hfound⟩ := exists_of_accepts hkeyword
  obtain ⟨c, hlead, hc⟩ := lead?_of_keyword hplain hw hfound
  have hletter : c.isAlpha := isAlpha_of_foldCase (hc ▸ hk) (hc ▸ halpha)
  rw [isAlpha_iff] at hletter
  refine not_lead?_of_atStatementEnd h ?_ ?_ ?_ (hc ▸ helse) hlead
  · simp only [Text.isWhite, Bool.or_eq_true, Bool.and_eq_true, decide_eq_true_eq, beq_iff_eq]
    omega
  · rintro rfl
    exact absurd hletter (by decide)
  · rintro rfl
    exact absurd hletter (by decide)

/-- The expression that ends a statement. -/
theorem carries_lastExpression (hb : Border x y) : Carries x y n EndsStatement expression :=
  (carries_expression hb n).mono fun _ hr => hr.opensArguments

theorem carries_anyTarget (hb : Border x y) : Carries x y n Q target :=
  (carries_target hb (carries_expression hb n)).of_succ

/-- What stands here is the same, whichever of the texts begins at the border. -/
theorem Border.lead?_append (hb : Border x y) (v : List Char) :
    lead? (v ++ x) = lead? (v ++ y) := by
  obtain ⟨v', hx, -, hy⟩ := (steady_blanks hb).exists_suffix (v := v) rfl
  rw [lead?, hx, lead?, (Outcome.accepted.inj hy).2]
  exact hb.head?_append v'

/-- `THEN` and `ELSE` themselves, as well as shorter words. -/
theorem Border.accepts_keyword (hb : Border x y) (hw : w.utf8ByteSize = w.toList.length)
    (h : isClear w = true ∨ w.toList.length ≤ 4) (v : List Char) :
    accepts (keyword w) (v ++ x) = accepts (keyword w) (v ++ y) := by
  obtain ⟨lead, v', -, hx, hy⟩ := (steady_blanks hb v).resolve_right nofun
  obtain ⟨front, s, t, rfl, rfl, hfront, hs, ht⟩ := hb.exists_word
  rw [accepts, accepts, keyword_eq, bind_of_accepted hx, bind_of_accepted hy]
  rcases hfront.unlettered_cases hw h hs (fun c hc => not_isAlpha_of_isBlank (ht c hc)) v' with
    ⟨f, r, -, -, -, hx, hy⟩ | ⟨_, _, hx, hy⟩
  · rw [wholly_of_accepted hx, wholly_of_accepted hy]
  · rw [wholly_of_refused hx, wholly_of_refused hy]

theorem atStatementEnd_eq (s : List Char) :
    atStatementEnd s = match (Text.trimStart s).head? with
      | none => true
      | some c => c == ':' || c == '\'' || accepts (keyword "ELSE") (Text.trimStart s) := by
  rw [atStatementEnd]
  rcases h : Text.trimStart s with _ | ⟨c, more⟩
  · rfl
  · by_cases hcolon : c = ':'
    · subst hcolon
      rfl
    · by_cases hquote : c = '\''
      · subst hquote
        rfl
      · rw [List.head?_cons]
        dsimp only
        rw [beq_false_of_ne hcolon, beq_false_of_ne hquote]
        split
        next heq => cases heq
        next heq => exact absurd (List.cons.inj heq).1 hcolon
        next heq => exact absurd (List.cons.inj heq).1 hquote
        next => rfl

theorem Border.atStatementEnd_append (hb : Border x y) (v : List Char) :
    atStatementEnd (v ++ x) = atStatementEnd (v ++ y) := by
  obtain ⟨v', hx, hy⟩ := trimStart_append hb v
  have hhead := head?_trimStart hb v
  have helse := hb.accepts_keyword (w := "ELSE") (by decide) (.inr (by decide)) v'
  rw [atStatementEnd_eq, atStatementEnd_eq, hhead, hx, hy, helse]

/-! ## How expressions begin -/

theorem symbol_of_lead? {c : Char} {more : List Char} (hw : w.toList = c :: more)
    (h : lead? s ≠ some c) : ∃ place, symbol w s = .refused place := by
  obtain ⟨lead, dark, rfl, hlead, hdark, -⟩ := exists_of_blanks s
  rw [lead?_append hlead hdark] at h
  refine ⟨dark, symbol_of_unlike hlead hdark ?_⟩
  rw [hw]
  rintro ⟨rest, rfl⟩
  exact h rfl

theorem lead?_of_number {found : Float × String} (h : Grammar.number s = .accepted found rest) :
    ∃ c, lead? s = some c ∧ (c.isDigit ∨ c = '.' ∨ foldCase c = '&') := by
  rw [number_eq] at h
  obtain ⟨lead, dark, hlead, h⟩ := exists_of_after_blanks h
  obtain ⟨start, _, hstart, h⟩ := exists_of_bind h
  obtain ⟨rfl, rfl⟩ := Outcome.accepted.inj hstart
  obtain ⟨value, t, hvalue, -⟩ := exists_of_bind h
  obtain ⟨found, u, hfound, hthen⟩ := exists_of_bind hvalue
  rcases of_attempt hfound with ⟨a, rfl, ha⟩ | ⟨rfl, rfl⟩
  · obtain ⟨_, after, hword, -⟩ := exists_of_bind ha
    obtain ⟨_ | ⟨c, front⟩, rfl, -, hfront⟩ := begins_of_word (by decide) hword
    · cases hfront
    · exact ⟨c, hlead, .inr (.inr (List.cons.inj hfront).1)⟩
  · obtain ⟨value, _, hdecimal, -⟩ := exists_of_bind hthen
    obtain ⟨parts, _, hmantissa, -⟩ := exists_of_bind hdecimal
    obtain ⟨front, _, hdigits, hpoint⟩ := exists_of_bind hmantissa
    rcases of_optional hdigits with ⟨digits, rfl, hfront⟩ | ⟨rfl, rfl, -⟩
    · obtain ⟨rfl, hne, hall, -⟩ := of_takeWhile1 hfront
      obtain ⟨c, digits, rfl⟩ := List.exists_cons_of_ne_nil hne
      exact ⟨c, hlead, .inl (hall c List.mem_cons_self)⟩
    · obtain ⟨c, _, hc, -⟩ := exists_of_bind hpoint
      obtain ⟨rfl, hclass⟩ := of_satisfy hc
      exact ⟨c, hlead, .inr (.inl (eq_of_beq hclass))⟩

/-- An operand begins with a parenthesis only if it stands in parentheses, and never with `#`. -/
theorem lead?_of_atom {e : Expr Float} (h : atom expression s = .accepted e rest) :
    lead? s ≠ some '#' ∧ (lead? s = some '(' → accepts (enclosed expression) s = true) := by
  have other {c : Char} (hlead : lead? s = some c) (hc : c ≠ '#' ∧ c ≠ '(') :
      lead? s ≠ some '#' ∧ (lead? s = some '(' → accepts (enclosed expression) s = true) := by
    rw [hlead]
    exact ⟨fun h => hc.1 (Option.some.inj h), fun h => absurd (Option.some.inj h) hc.2⟩
  have letter {c : Char} (hc : c.isAlpha) : c ≠ '#' ∧ c ≠ '(' := by
    constructor <;> (rintro rfl; exact absurd hc (by decide))
  obtain ⟨p, hp, h⟩ := exists_of_firstOf h
  simp only [List.mem_cons, List.not_mem_nil, or_false] at hp
  rcases hp with rfl | rfl | rfl | rfl | rfl
  · obtain ⟨found, _, hfound, -⟩ := exists_of_bind h
    obtain ⟨c, hlead, hc⟩ := lead?_of_number hfound
    refine other hlead ⟨?_, ?_⟩ <;> (rintro rfl; revert hc; decide)
  · obtain ⟨text, _, htext, -⟩ := exists_of_bind h
    exact other (lead?_of_quoted htext) (by decide)
  · obtain ⟨_, _, hopen, -⟩ := exists_of_bind h
    have hlead := lead?_of_symbol (c := '(') rfl hopen
    refine ⟨?_, fun _ => accepts_of_accepted h⟩
    rw [hlead]
    decide
  · obtain ⟨c, hlead, hc⟩ := lead?_of_userCall h
    exact other hlead (letter hc)
  · obtain ⟨c, hlead, hc⟩ := lead?_of_namedExpr h
    exact other hlead (letter hc)

/-- Signs and `NOT` stand here, or an operand does. -/
def BeginsOperand (s : List Char) : Prop :=
  accepts (atom expression) s = true ∨
    ∃ c, lead? s = some c ∧ (c = '-' ∨ c = '+' ∨ foldCase c = 'n')

/-- The marks in front are none, or the first of them stands here. -/
theorem marks_cases {α β : Type} {mark : Parser α} [mark.Advances] [mark.Consumes] {item : α → β}
    {items : List β} (h : repeated (markStep mark item) s = .accepted items t) :
    t = s ∨ accepts mark s = true := by
  have hmarked : Marked mark (markStep mark item) := marked_attempt rfl (by
    rintro b s items goesOn rest ⟨⟩
    rfl)
  rcases exists_of_repeated (progresses_markStep item) inferInstance h with
    hlast | ⟨_, _, _, hround, -, -⟩
  · rcases hmarked hlast with ⟨hgoesOn, -⟩ | ⟨-, -, rfl⟩
    · cases hgoesOn
    · exact .inl rfl
  · rcases hmarked hround with ⟨-, hmark⟩ | ⟨hgoesOn, -⟩
    · exact .inr hmark
    · cases hgoesOn

theorem beginsOperand_of_expression {e : Expr Float} (h : expression s = .accepted e rest) :
    BeginsOperand s := by
  have := consumes_keyword (w := "NOT") (by decide)
  have := consumes_symbol (w := "-") (by decide)
  have := consumes_symbol (w := "+") (by decide)
  have first {operator : Parser BinaryOp} {operand : Parser (Expr Float)}
      (h : ∀ ⦃e t⦄, operand s = .accepted e t → BeginsOperand s) ⦃e t⦄
      (hs : leftGrouped operator operand s = .accepted e t) : BeginsOperand s := by
    obtain ⟨_, _, hfirst, -⟩ := exists_of_bind hs
    exact h hfirst
  have hnegation ⦃e t⦄ (h : negationExpr expression s = .accepted e t) : BeginsOperand s := by
    rw [negationExpr_eq] at h
    obtain ⟨signs, u, hsigns, hpower⟩ := exists_of_bind h
    rcases marks_cases hsigns with rfl | hmark
    · obtain ⟨_, _, hbase, -⟩ := exists_of_bind hpower
      obtain ⟨_, _, hatom, -⟩ := exists_of_bind hbase
      exact .inl (accepts_of_accepted hatom)
    · obtain ⟨sign, _, hsign⟩ := exists_of_accepts hmark
      rcases of_orElse hsign with hsign | hsign
      · exact .inr ⟨_, lead?_of_symbol (c := '-') rfl hsign, .inl rfl⟩
      · exact .inr ⟨_, lead?_of_symbol (c := '+') rfl hsign, .inr (.inl rfl)⟩
  have hnot ⦃e t⦄ (h : notExpr expression s = .accepted e t) : BeginsOperand s := by
    obtain ⟨words, u, hwords, hthen⟩ := exists_of_bind h
    rw [counted_eq] at hwords
    obtain ⟨marks, _, hmarks, heq⟩ := exists_of_bind hwords
    obtain ⟨-, rfl⟩ := Outcome.accepted.inj heq
    rcases marks_cases hmarks with rfl | hmark
    · obtain ⟨e, t, hrelational, -⟩ := exists_of_bind hthen
      exact first (first (first (first (first hnegation)))) hrelational
    · obtain ⟨found, _, hfound⟩ := exists_of_accepts hmark
      obtain ⟨c, hlead, hc⟩ := lead?_of_keyword (by decide) rfl hfound
      exact .inr ⟨c, hlead, .inr (.inr hc)⟩
  rw [(eq_expression_iff expression).2 rfl] at h
  exact first (first (first (first (first hnot)))) h

/-- No expression begins with `#`. -/
theorem lead?_of_expression {e : Expr Float} (h : expression s = .accepted e rest) :
    lead? s ≠ some '#' := by
  rcases beginsOperand_of_expression h with hatom | ⟨c, hlead, hc⟩
  · obtain ⟨_, _, hatom⟩ := exists_of_accepts hatom
    exact (lead?_of_atom hatom).1
  · rw [hlead]
    rintro ⟨⟩
    revert hc
    decide

/-- Where an expression stands, a parenthesis may begin arguments. -/
theorem opensArguments_of_expression {e : Expr Float} (h : expression s = .accepted e rest) :
    OpensArguments s := by
  intro hopen
  have hlead := lead?_of_accepts_symbol (c := '(') rfl hopen
  rcases beginsOperand_of_expression h with hatom | ⟨c, hc, hsign⟩
  · obtain ⟨_, _, hatom⟩ := exists_of_accepts hatom
    obtain ⟨e, t, henclosed⟩ := exists_of_accepts ((lead?_of_atom hatom).2 hlead)
    obtain ⟨_, u, hopen, h⟩ := exists_of_bind henclosed
    obtain ⟨e, u', he, h⟩ := exists_of_bind h
    obtain ⟨_, u'', hclose, -⟩ := exists_of_bind h
    have hno : lead? u' ≠ some ',' := by
      rw [lead?_of_symbol (c := ')') rfl hclose]
      decide
    obtain ⟨place, hcomma⟩ := symbol_of_lead? (w := ",") rfl hno
    have hargs : separated1 (symbol ",") expression u = .accepted [e] u' :=
      separated1_of_accepted he (repeated_furtherStep_nil hcomma)
    exact accepts_of_accepted ((bind_of_accepted hopen).trans ((bind_of_accepted hargs).trans
      ((bind_of_accepted hclose).trans rfl)))
  · rw [hlead] at hc
    obtain rfl := Option.some.inj hc
    exact absurd hsign (by decide)

/-! ## Lists of expressions and marks -/

theorem symbol_after_blanks {lead dark : List Char} (hlead : IsBlank lead) (hdark : StartsDark dark)
    (w : String) : symbol w (lead ++ dark) = symbol w dark := by
  have hdropped : symbol w (lead ++ dark) = exactly w.toList dark := after_blanks hlead hdark
  have hnone : symbol w dark = exactly w.toList dark :=
    bind_of_accepted (blanks_append isBlank_nil hdark)
  rw [hdropped, hnone]

theorem OpensArguments.after_blanks {lead dark : List Char} (h : OpensArguments dark)
    (hlead : IsBlank lead) (hdark : StartsDark dark) : OpensArguments (lead ++ dark) := by
  have hsymbol := symbol_after_blanks hlead hdark "("
  have harguments : arguments expression (lead ++ dark) = arguments expression dark := by
    change Parser.bind _ _ _ = Parser.bind _ _ _
    rw [Parser.bind, Parser.bind, hsymbol]
  rw [OpensArguments, accepts, accepts, hsymbol, harguments]
  exact h

/-- A mark or an expression, up to the end of the statement. -/
def itemStep {α β : Type} (mark : Parser α) (markItems : α → List β) (item : Expr Float → β) :
    Parser (List β × Bool) := do
  let _ ← blanks
  let rest ← remaining
  if atStatementEnd rest then return ([], false)
  else match ← attempt mark with
    | some a => return (markItems a, true)
    | none => return ([item (← expression)], true)

/-- What a round of such a list has read behind the blanks before it. -/
inductive ReadItem {α β : Type} (mark : Parser α) (markItems : α → List β) (item : Expr Float → β)
    (s : List Char) : List β → Bool → List Char → Prop
  | stop : EndsStatement s → ReadItem mark markItems item s [] false s
  | mark {a : α} {t : List Char} : ¬ EndsStatement s → mark s = .accepted a t →
    ReadItem mark markItems item s (markItems a) true t
  | expr {e : Expr Float} {t : List Char} : ¬ EndsStatement s → accepts mark s = false →
    expression s = .accepted e t → ReadItem mark markItems item s [item e] true t

section Items

variable {α β : Type} {mark : Parser α} {markItems : α → List β} {item : Expr Float → β}
  {items : List β} {goesOn : Bool}

theorem itemStep_eq {lead dark : List Char} (hs : blanks s = .accepted lead dark) :
    itemStep mark markItems item s =
      (if atStatementEnd dark then Pure.pure ([], false)
        else attempt mark >>= fun found => match found with
          | some a => Pure.pure (markItems a, true)
          | none => (fun e => ([item e], true)) <$> expression : Parser (List β × Bool)) dark :=
  bind_of_accepted hs

theorem itemStep_iff {lead dark : List Char} (hs : blanks s = .accepted lead dark) :
    itemStep mark markItems item s = .accepted (items, goesOn) t ↔
      ReadItem mark markItems item dark items goesOn t := by
  rw [itemStep_eq hs]
  constructor
  · intro h
    split at h
    next hend =>
      cases h
      exact .stop hend
    next hend =>
      obtain ⟨found, u, hfound, hthen⟩ := exists_of_bind h
      cases hmark : accepts mark dark with
      | true =>
        obtain ⟨a, u', ha⟩ := exists_of_accepts hmark
        rw [attempt_of_accepted ha] at hfound
        cases hfound
        cases hthen
        exact .mark hend ha
      | false =>
        rw [attempt_of_not_accepts hmark] at hfound
        cases hfound
        obtain ⟨e, u', he, heq⟩ := exists_of_bind hthen
        cases heq
        exact .expr hend hmark he
  · rintro (hend | ⟨hend, ha⟩ | ⟨hend, hno, he⟩)
    · rw [EndsStatement] at hend
      rw [if_pos hend]
      rfl
    · rw [EndsStatement] at hend
      rw [if_neg hend]
      exact (bind_of_accepted (attempt_of_accepted ha)).trans rfl
    · rw [EndsStatement] at hend
      rw [if_neg hend]
      exact (bind_of_accepted (attempt_of_not_accepts hno)).trans (map_of_accepted he)

/-- An item stands here, or what stands behind the list. -/
theorem exists_item (hstep : Progresses (itemStep mark markItems item))
    (hadvances : (itemStep mark markItems item).Advances) {more : List β}
    (hrest : EndsStatement rest)
    (h : repeated (itemStep mark markItems item) s = .accepted more rest) :
    ∃ lead dark, s = lead ++ dark ∧ IsBlank lead ∧ StartsDark dark ∧
      (EndsStatement dark ∨ accepts mark dark = true ∨ accepts expression dark = true) := by
  obtain ⟨lead, dark, rfl, hlead, hdark, hs⟩ := exists_of_blanks s
  refine ⟨lead, dark, rfl, hlead, hdark, ?_⟩
  rcases exists_of_repeated hstep hadvances h with hlast | ⟨_, _, t, hround, -, -⟩
  · cases (itemStep_iff hs).1 hlast with
    | stop => exact .inl hrest
  · cases (itemStep_iff hs).1 hround with
    | mark _ ha => exact .inr (.inl (accepts_of_accepted ha))
    | expr _ _ he => exact .inr (.inr (accepts_of_accepted he))

theorem carries_items (hb : Border x y) (hmark : Steady x y mark)
    (hopen : ∀ r, accepts mark r = true → lead? r ≠ some '(')
    (hstep : Progresses (itemStep mark markItems item))
    (hadvances : (itemStep mark markItems item).Advances) :
    Carries x y n EndsStatement (repeated (itemStep mark markItems item)) := by
  have dark (v : List Char) : ∃ lead v', v' <:+ v ∧ blanks (v ++ x) = .accepted lead (v' ++ x) ∧
      blanks (v ++ y) = .accepted lead (v' ++ y) := (steady_blanks hb v).resolve_right nofun
  have hend (v : List Char) : EndsStatement (v ++ x) ↔ EndsStatement (v ++ y) := by
    rw [EndsStatement, EndsStatement, hb.atStatementEnd_append]
  have between {s rest : List Char} {more : List β} (hrest : EndsStatement rest)
      (h : repeated (itemStep mark markItems item) s = .accepted more rest) : OpensArguments s := by
    obtain ⟨lead, dark, rfl, hlead, hdark, hitem⟩ := exists_item hstep hadvances hrest h
    refine OpensArguments.after_blanks ?_ hlead hdark
    rcases hitem with hend | hmark | he
    · exact hend.opensArguments
    · exact opensArguments_of_lead? (hopen _ hmark)
    · obtain ⟨e, t, he⟩ := exists_of_accepts he
      exact opensArguments_of_expression he
  refine .repeated hstep ?_ ?_
  · intro v v' items hn hQ h
    obtain ⟨lead, u, -, hx, hy⟩ := dark v
    rw [itemStep_iff hx] at h
    rw [itemStep_iff hy]
    generalize hrest : v' ++ x = rest at h
    cases h with
    | stop hend' =>
      rw [List.append_cancel_right hrest]
      exact .stop ((hend u).1 hend')
  · intro v v' items more rest hn hrest hmore h
    obtain ⟨lead, u, hu, hx, hy⟩ := dark v
    rw [itemStep_iff hx] at h
    rw [itemStep_iff hy]
    generalize hplace : v' ++ x = place at h
    cases h with
    | mark hno ha =>
      exact .mark (mt (hend u).2 hno) (hmark.carries (n := n) (Q := fun _ => True)
        (Nat.lt_of_le_of_lt hu.length_le hn) trivial (hplace ▸ ha))
    | expr hno hmark' he =>
      subst hplace
      refine .expr (mt (hend u).2 hno) (hmark.accepts_eq u ▸ hmark') ?_
      exact carries_expression hb n (Nat.lt_of_le_of_lt hu.length_le hn) (between hrest hmore) he

end Items

/-! ## Parts of commands -/

/-- Where no file number follows. -/
theorem carries_channel (hb : Border x y) :
    Carries x y n (fun r => lead? r ≠ some '#') channel := by
  have hnumber : Carries x y n (fun r => accepts (symbol ",") r = true) expression :=
    (carries_expression hb n).mono fun r hr =>
      opensArguments_of_symbol (c := ',') rfl (by decide) hr
  refine .optional_of_mark (steady_symbol hb (by decide))
    ((steady_symbol hb (by decide)).before fun _ => hnumber.bind
      (fun _ => (steady_comma hb).before fun _ => .pure _) ?_) fun r hr hmark => ?_
  · intro e t b rest h _
    obtain ⟨_, _, hcomma, -⟩ := exists_of_bind h
    exact accepts_of_accepted hcomma
  · exact absurd (lead?_of_accepts_symbol (c := '#') rfl hmark) hr

theorem quoted_of_lead? (h : lead? s ≠ some '"') : ∃ place, quoted s = .refused place := by
  obtain ⟨lead, dark, rfl, hlead, hdark, -⟩ := exists_of_blanks s
  rw [lead?_append hlead hdark] at h
  refine ⟨dark, (after_blanks hlead hdark).trans
    (bind_of_refused (satisfy_of_head fun c hc hq => ?_))⟩
  rw [eq_of_beq hq] at hc
  exact h hc

/-- Where no string follows. -/
theorem carries_prompt (hb : Border x y) : Carries x y n (fun r => lead? r ≠ some '"') prompt := by
  have hmark : Steady x y (symbol ";" <|> symbol ",") :=
    (steady_symbol hb (by decide)).orElse (steady_comma hb)
  refine (steady_symbol hb (by decide)).optional.before fun _ => Carries.optional
    ((carries_quoted hb).seq fun text => hmark.before fun _ => .pure text) fun v place hv _ => ?_
  rw [hb.lead?_append v] at hv
  obtain ⟨place', hplace'⟩ := quoted_of_lead? hv
  exact ⟨place', bind_of_refused hplace'⟩

/-- Elements and commas up to the end of the statement. -/
theorem carries_listOf {α : Type} (hb : Border x y) {element : Parser α} [element.Advances]
    (h : Carries x y n (fun r => EndsStatement r ∨ accepts (symbol ",") r = true) element) :
    Carries x y n EndsStatement (separated1 (symbol ",") element) := by
  have := consumes_symbol (w := ",") (by decide)
  exact .separated1 (steady_comma hb) h
    (fun r hr => ⟨hr.not_accepts_symbol (c := ',') rfl, .inl hr⟩) fun r hr => .inr hr

theorem carries_targets (hb : Border x y) :
    Carries x y n EndsStatement (separated1 (symbol ",") target) :=
  carries_listOf hb (carries_anyTarget hb)

theorem lead?_of_target {v : Target Float} (h : target s = .accepted v rest) :
    ∃ c, lead? s = some c ∧ c.isAlpha := by
  obtain ⟨name, _, hname, -⟩ := exists_of_bind h
  exact lead?_of_variableName hname

theorem lead?_of_targets {vs : List (Target Float)}
    (h : separated1 (symbol ",") target s = .accepted vs rest) :
    ∃ c, lead? s = some c ∧ c.isAlpha := by
  obtain ⟨v, _, hv, -⟩ := exists_of_bind h
  exact lead?_of_target hv

theorem lead?_ne_of_isAlpha {c : Char} (h : ∃ c, lead? s = some c ∧ c.isAlpha) (hc : ¬ c.isAlpha) :
    lead? s ≠ some c := by
  obtain ⟨d, hd, halpha⟩ := h
  rw [hd]
  rintro ⟨⟩
  exact hc halpha

/-- A prompt, and letters behind it. -/
theorem lead?_of_prompt {α : Type} {f : Option String → Parser α} {a : α}
    (hf : ∀ found t, f found t = .accepted a rest → ∃ c, lead? t = some c ∧ c.isAlpha)
    (h : (prompt >>= f) s = .accepted a rest) : lead? s ≠ some '#' := by
  obtain ⟨text, t, hprompt, hthen⟩ := exists_of_bind h
  obtain ⟨mark, u, hmark, hquoted⟩ := exists_of_bind hprompt
  rcases of_optional hmark with ⟨_, -, hmark⟩ | ⟨-, rfl, -⟩
  · rw [lead?_of_symbol (c := ';') rfl hmark]
    decide
  · rcases of_optional hquoted with ⟨_, -, hquoted⟩ | ⟨-, rfl, -⟩
    · obtain ⟨_, _, hquoted, -⟩ := exists_of_bind hquoted
      rw [lead?_of_quoted hquoted]
      decide
    · exact lead?_ne_of_isAlpha (hf _ _ hthen) (by decide)

theorem variableName_of_lead? (h : ∀ c ∈ lead? s, ¬ c.isAlpha) :
    ∃ place, variableName s = .refused place := by
  obtain ⟨lead, dark, rfl, hlead, hdark, -⟩ := exists_of_blanks s
  rw [lead?_append hlead hdark] at h
  exact ⟨dark, (after_blanks hlead hdark).trans
    (wholly_of_refused (bind_of_refused (bind_of_refused (satisfy_of_head h))))⟩

theorem carries_nameList (hb : Border x y) : Carries x y n EndsStatement nameList := by
  refine carries_listOf hb ((carries_variableName hb).seq fun name => ?_)
  have hpair : Steady x y (symbol "(" >>= fun _ => symbol ")") :=
    (steady_open hb).bind fun _ => steady_close hb
  exact hpair.optional.before fun _ => .pure _

/-! ## Commands -/

theorem carries_assignForm (hb : Border x y) : Carries x y n EndsStatement assignForm :=
  (steady_keyword hb (by decide)).optional.before fun _ => (carries_anyTarget hb).seq fun _ =>
    (steady_symbol hb (by decide)).before fun _ => (carries_lastExpression hb).map _

theorem eq_itemStep {α β : Type} {mark : Parser α} {markItems : α → List β}
    {item : Expr Float → β} {f : Option α → Parser (List β × Bool)}
    (hsome : ∀ a, f (some a) = Pure.pure (markItems a, true))
    (hnone : f none = (fun e => ([item e], true)) <$> expression) :
    (blanks >>= fun _ => remaining >>= fun rest =>
      if atStatementEnd rest then Pure.pure ([], false) else attempt mark >>= f) =
        itemStep mark markItems item := by
  have hf : f = fun found => match found with
      | some a => Pure.pure (markItems a, true)
      | none => (fun e => ([item e], true)) <$> expression := by
    funext found
    cases found with
    | none => exact hnone
    | some a => exact hsome a
  rw [hf]
  rfl

theorem printStep_eq : printStep = itemStep (exactly [','] <|> exactly [';'])
    (fun mark => [if mark == "," then PrintItem.zone else .join]) .expr :=
  eq_itemStep (fun _ => rfl) rfl

theorem deviceStep_eq : deviceStep = itemStep
    (exactly [','] <|> exactly [';'] <|> exactly ['#'] <|> keyword "AS") (fun _ => []) id :=
  eq_itemStep (fun _ => rfl) rfl

theorem printForm_eq : printForm = (keyword "PRINT" <|> keyword "LPRINT" <|> symbol "?") >>=
    fun _ => channel >>= fun channel => optional (keyword "USING") >>= fun _ =>
      Command.print channel <$> repeated printStep := rfl

theorem deviceForm_eq : deviceForm =
    keywordOf deviceWords >>= fun w => Command.device w <$> repeated deviceStep := rfl

/-- A mark that stands in front of everything else begins with its own character. -/
theorem lead?_of_exactly {c : Char} (hc : ¬ Text.isBlank c) {found : String}
    (h : exactly [c] s = .accepted found rest) : lead? s = some c := by
  rw [exactly] at h
  split at h
  next hprefix =>
    obtain ⟨more, rfl⟩ := List.isPrefixOf_iff_prefix.1 hprefix
    exact lead?_append isBlank_nil (startsDark_cons hc)
  next => cases h

theorem lead?_of_printMark (h : accepts (exactly [','] <|> exactly [';']) s = true) :
    lead? s = some ',' ∨ lead? s = some ';' := by
  obtain ⟨found, rest, h⟩ := exists_of_accepts h
  rcases of_orElse h with h | h
  · exact .inl (lead?_of_exactly (by decide) h)
  · exact .inr (lead?_of_exactly (by decide) h)

theorem carries_printForm (hb : Border x y) : Carries x y n EndsStatement printForm := by
  have hword : Steady x y (keyword "PRINT" <|> keyword "LPRINT" <|> symbol "?") :=
    (steady_keyword hb (by decide)).orElse
      ((steady_keyword hb (by decide)).orElse (steady_symbol hb (by decide)))
  have hmark : Steady x y (exactly [','] <|> exactly [';']) :=
    (steady_exactly hb (by decide)).orElse (steady_exactly hb (by decide))
  have hitems : Carries x y n EndsStatement (repeated printStep) := by
    have hprogress := progresses_printStep
    have hadvances : printStep.Advances := inferInstance
    rw [printStep_eq] at hprogress hadvances ⊢
    refine carries_items hb hmark (fun r hr => ?_) hprogress hadvances
    rcases lead?_of_printMark hr with h | h <;> rw [h] <;> decide
  have : (repeated printStep).Advances := .repeated inferInstance
  rw [printForm_eq]
  refine hword.before fun _ => Carries.bind (carries_channel hb)
    (fun channel => (steady_keyword hb (w := "USING") (by decide)).optional.before fun _ =>
      hitems.map _) ?_
  -- neither `USING` nor an item begins with `#`
  intro channel t b rest h hrest
  obtain ⟨found, u, hfound, hthen⟩ := exists_of_bind h
  rcases of_optional hfound with ⟨w, rfl, hw⟩ | ⟨rfl, rfl, -⟩
  · obtain ⟨c, hc, hfold⟩ := lead?_of_keyword (by decide) rfl hw
    rw [hc]
    rintro ⟨⟩
    exact absurd hfold (by decide)
  · obtain ⟨items, _, hitems, heq⟩ := exists_of_bind hthen
    obtain ⟨-, rfl⟩ := Outcome.accepted.inj heq
    obtain ⟨lead, dark, rfl, hlead, hdark, hitem⟩ :=
      exists_item (printStep_eq ▸ progresses_printStep)
        (printStep_eq ▸ (inferInstance : printStep.Advances)) hrest (printStep_eq ▸ hitems)
    have hsame : lead? (lead ++ dark) = lead? dark :=
      (lead?_append hlead hdark).trans (lead?_append isBlank_nil hdark).symm
    rw [hsame]
    rcases hitem with hend | hmark | he
    · exact not_lead?_of_atStatementEnd hend (by decide) (by decide) (by decide) (by decide)
    · rcases lead?_of_printMark hmark with h | h <;> rw [h] <;> decide
    · obtain ⟨e, t, he⟩ := exists_of_accepts he
      exact lead?_of_expression he

theorem carries_inputForm (hb : Border x y) : Carries x y n EndsStatement inputForm := by
  refine (steady_keyword hb (by decide)).before fun _ => Carries.bind (carries_channel hb)
    (fun channel => Carries.bind (carries_prompt hb) (fun prompt => (carries_targets hb).map _) ?_)
    fun channel t b rest h _ => lead?_of_prompt (fun found t h => ?_) h
  · intro prompt t b rest h _
    obtain ⟨vs, _, hvs, -⟩ := exists_of_bind h
    exact lead?_ne_of_isAlpha (lead?_of_targets hvs) (by decide)
  · obtain ⟨vs, _, hvs, -⟩ := exists_of_bind h
    exact lead?_of_targets hvs

theorem carries_lineInputForm (hb : Border x y) : Carries x y n EndsStatement lineInputForm := by
  refine (steady_keyword hb (by decide)).before fun _ => (steady_keyword hb (by decide)).before
    fun _ => Carries.bind (carries_channel hb) (fun channel => Carries.bind (carries_prompt hb)
      (fun prompt => (carries_anyTarget hb).map _) ?_)
    fun channel t b rest h _ => lead?_of_prompt (fun found t h => ?_) h
  · intro prompt t b rest h _
    obtain ⟨v, _, hv, -⟩ := exists_of_bind h
    exact lead?_ne_of_isAlpha (lead?_of_target hv) (by decide)
  · obtain ⟨v, _, hv, -⟩ := exists_of_bind h
    exact lead?_of_target hv

theorem carries_readForm (hb : Border x y) : Carries x y n EndsStatement readForm :=
  (steady_keyword hb (by decide)).before fun _ => (carries_targets hb).map _

theorem splitData_append (hb : Border x y) {isQuoted : Bool} {items : List (List Char)}
    {v v' : List Char} (h : splitData isQuoted (v ++ x) = (items, v' ++ x)) :
    splitData isQuoted (v ++ y) = (items, v' ++ y) := by
  induction v generalizing isQuoted items with
  | nil =>
    -- the letter at the border is taken
    obtain ⟨k, x', y', rfl, rfl, hk⟩ := hb.exists_head
    have hcolon : ¬ (k = ':' && !isQuoted) = true := by
      rw [Bool.and_eq_true, decide_eq_true_eq]
      rintro ⟨rfl, -⟩
      exact absurd hk (by decide)
    have hafter : (splitData isQuoted (k :: x')).2 <:+ x' := by
      rw [splitData, if_neg hcolon]
      have hsuffix := suffix_splitData (if k = '"' then !isQuoted else isQuoted) x'
      dsimp only
      split
      · exact hsuffix
      · split <;> exact hsuffix
    have hlength := hafter.length_le
    rw [List.nil_append] at h
    rw [h, List.length_append, List.length_cons] at hlength
    omega
  | cons c v ih =>
    rw [List.cons_append, splitData] at h ⊢
    split at h
    next hcolon =>
      obtain ⟨rfl, hv⟩ := Prod.mk.inj h
      rw [← List.cons_append] at hv
      rw [if_pos hcolon, ← List.append_cancel_right hv]
      rfl
    next hcolon =>
      rw [if_neg hcolon]
      rcases hfound : splitData (if c = '"' then !isQuoted else isQuoted) (v ++ x) with
        ⟨found, after⟩
      rw [hfound] at h
      dsimp only at h
      split at h
      next hcomma =>
        obtain ⟨rfl, rfl⟩ := Prod.mk.inj h
        rw [ih hfound]
        exact if_pos hcomma
      next hcomma =>
        cases found with
        | cons item others =>
          obtain ⟨rfl, rfl⟩ := Prod.mk.inj h
          rw [ih hfound]
          exact if_neg hcomma
        | nil =>
          obtain ⟨rfl, rfl⟩ := Prod.mk.inj h
          rw [ih hfound]
          exact if_neg hcomma

theorem dataForm_eq : dataForm = keyword "DATA" >>= fun _ s =>
    let trimmed := (splitData false s).1.map Text.trim
    let shown := if trimmed == [[]] then [] else trimmed
    .accepted (.data (shown.map fun item => String.ofList (Text.trimChar '"' item)))
      (splitData false s).2 := rfl

theorem carries_dataForm (hb : Border x y) : Carries x y n EndsStatement dataForm := by
  rw [dataForm_eq]
  refine (steady_keyword hb (by decide)).before fun _ v v' command hn hQ h => ?_
  obtain ⟨rfl, hrest⟩ := Outcome.accepted.inj h
  have hx : splitData false (v ++ x) = ((splitData false (v ++ x)).1, v' ++ x) :=
    Prod.ext rfl hrest
  dsimp only
  rw [splitData_append hb hx]

theorem carries_restoreForm (hb : Border x y) : Carries x y n EndsStatement restoreForm :=
  (steady_keyword hb (by decide)).before fun _ => (steady_wholeNumber hb).optional.carries.map _

theorem carries_dimForm (hb : Border x y) : Carries x y n EndsStatement dimForm := by
  refine (steady_keyword hb (by decide)).before fun _ => Carries.map (carries_listOf hb ?_) _
  exact (carries_variableName hb).seq fun name =>
    (carries_arguments hb (carries_expression hb n)).of_succ.map _

theorem carries_optionBaseForm (hb : Border x y) : Carries x y n EndsStatement optionBaseForm :=
  (steady_keyword hb (by decide)).before fun _ => (steady_keyword hb (by decide)).before fun _ =>
    (steady_wholeNumber hb).carries.map _

theorem carries_letter (hb : Border x y) : Carries x y n Q letter :=
  (steady_blanks hb).before fun _ => (carries_satisfy hb).seq fun _ => .pure _

theorem carries_defTypeForm (hb : Border x y) : Carries x y n EndsStatement defTypeForm := by
  have : letter.Advances := by
    unfold letter
    infer_instance
  have hword : Steady x y (firstOf (typeWords.map fun o => keyword o.1 >>= fun _ =>
      Pure.pure o.2)) := by
    refine .firstOf (List.forall_mem_map.2 fun o ho => ?_)
    exact (steady_keyword hb ((by decide : ∀ o ∈ typeWords, isClear o.1 = true) o ho)).map _
  refine hword.before fun type => Carries.map (carries_listOf hb ?_) _
  refine (carries_letter hb).seq fun first => Carries.bind (R := fun r => lead? r ≠ some '-')
    (.optional_of_mark (steady_minus hb) ((steady_minus hb).before fun _ => carries_letter hb)
      fun r hr hmark => absurd (lead?_of_accepts_symbol (c := '-') rfl hmark) hr)
    (fun _ => .pure _) ?_
  rintro last t b rest ⟨⟩ (hend | hcomma)
  · exact not_lead?_of_atStatementEnd hend (by decide) (by decide) (by decide) (by decide)
  · rw [lead?_of_accepts_symbol (c := ',') rfl hcomma]
    decide

theorem carries_names (hb : Border x y) (hQ : ∀ r, Q r → accepts (symbol ",") r = false) :
    Carries x y n Q (separated (symbol ",") variableName) :=
  have := consumes_symbol (w := ",") (by decide)
  .separated (R := fun _ => True) (steady_comma hb) (carries_variableName hb)
    (refuses_variableName hb) (fun r hr => ⟨hQ r hr, trivial⟩) fun _ _ => trivial

theorem carries_defFnForm (hb : Border x y) : Carries x y n EndsStatement defFnForm := by
  have hparams : Carries x y n (fun r => lead? r ≠ some '(') (optional (symbol "(" >>= fun _ =>
      separated (symbol ",") variableName >>= fun params => symbol ")" >>= fun _ =>
        Pure.pure params)) := by
    refine .optional_of_mark (steady_open hb) ((steady_open hb).before fun _ => Carries.bind
      (R := fun r => accepts (symbol ")") r = true) (carries_names hb fun r hr => ?_)
      (fun _ => (steady_close hb).before fun _ => .pure _) ?_) fun r hr hopen =>
        absurd (lead?_of_accepts_symbol (c := '(') rfl hopen) hr
    · have hno : lead? r ≠ some ',' := by
        rw [lead?_of_accepts_symbol (c := ')') rfl hr]
        decide
      obtain ⟨place, hplace⟩ := symbol_of_lead? (w := ",") rfl hno
      exact accepts_of_refused hplace
    · intro params t b rest h _
      obtain ⟨_, _, hclose, -⟩ := exists_of_bind h
      exact accepts_of_accepted hclose
  refine (steady_keyword hb (by decide)).before fun _ => (carries_functionName hb).seq fun name =>
    hparams.bind (fun params => (steady_symbol hb (by decide)).before fun _ =>
      (carries_lastExpression hb).map _) ?_
  intro params t b rest h _
  obtain ⟨_, _, hequals, -⟩ := exists_of_bind h
  rw [lead?_of_symbol (c := '=') rfl hequals]
  decide

/-- An expression that a word follows. -/
theorem opensArguments_of_keyword {d : Char} {more : List Char} {found : String}
    (hplain : isPlain w = true) (hw : w.toList = d :: more) (hd : foldCase d ≠ '(')
    (h : keyword w s = .accepted found rest) : OpensArguments s := by
  obtain ⟨c, hlead, hc⟩ := lead?_of_keyword hplain hw h
  refine opensArguments_of_lead? fun hopen => ?_
  rw [hlead] at hopen
  obtain rfl := Option.some.inj hopen
  exact hd hc.symm

theorem carries_forForm (hb : Border x y) : Carries x y n EndsStatement forForm := by
  have hstep : Carries x y n EndsStatement (optional (keyword "STEP" >>= fun _ => expression)) :=
    .optional_of_mark (steady_keyword hb (by decide))
      ((steady_keyword hb (by decide)).before fun _ => carries_lastExpression hb)
      fun r hr hword => by
        rw [hr.not_accepts_keyword (by decide) rfl] at hword
        cases hword
  refine (steady_keyword hb (by decide)).before fun _ => (carries_variableName hb).seq fun _ =>
    (steady_symbol hb (by decide)).before fun _ => Carries.bind (carries_expression hb n)
      (fun start => (steady_keyword hb (by decide)).before fun _ => Carries.bind
        (carries_expression hb n) (fun stop => hstep.map _) ?_) ?_
  · intro stop t b rest h hrest
    obtain ⟨found, u, hfound, heq⟩ := exists_of_bind h
    obtain ⟨-, rfl⟩ := Outcome.accepted.inj heq
    rcases of_optional hfound with ⟨e, -, he⟩ | ⟨-, rfl, -⟩
    · obtain ⟨_, _, hword, -⟩ := exists_of_bind he
      exact opensArguments_of_keyword (by decide) rfl (by decide) hword
    · exact hrest.opensArguments
  · intro start t b rest h _
    obtain ⟨_, _, hword, -⟩ := exists_of_bind h
    exact opensArguments_of_keyword (by decide) rfl (by decide) hword

theorem carries_nextForm (hb : Border x y) : Carries x y n EndsStatement nextForm :=
  (steady_keyword hb (by decide)).before fun _ =>
    (carries_names hb fun _ hr => hr.not_accepts_symbol (c := ',') rfl).map _

theorem carries_whileForm (hb : Border x y) : Carries x y n EndsStatement whileForm :=
  (steady_keyword hb (by decide)).before fun _ => (carries_lastExpression hb).map _

theorem carries_gotoForm (hb : Border x y) : Carries x y n EndsStatement gotoForm :=
  (steady_keyword hb (by decide)).before fun _ => (steady_wholeNumber hb).carries.map _

theorem carries_gosubForm (hb : Border x y) : Carries x y n EndsStatement gosubForm :=
  (steady_keyword hb (by decide)).before fun _ => (steady_wholeNumber hb).carries.map _

theorem carries_onForm (hb : Border x y) : Carries x y n EndsStatement onForm := by
  have hjump : Steady x y ((do
      let _ ← keyword "GOTO"
      return Command.onGoto) <|> (do
      let _ ← keyword "GOSUB"
      return Command.onGosub)) :=
    ((steady_keyword hb (by decide)).map _).orElse ((steady_keyword hb (by decide)).map _)
  have hlines : Carries x y n EndsStatement (separated1 (symbol ",") wholeNumber) :=
    carries_listOf hb (steady_wholeNumber hb).carries
  refine (steady_keyword hb (by decide)).before fun _ =>
    (steady_keyword hb (w := "ERROR") (by decide)).attempt.before fun found => ?_
  cases found with
  | some _ =>
    exact (steady_keyword hb (by decide)).before fun _ => (steady_wholeNumber hb).carries.map _
  | none =>
    refine Carries.bind (carries_expression hb n) (fun selector => hjump.before fun form =>
      hlines.map _) ?_
    intro selector t b rest h _
    obtain ⟨form, u, hform, -⟩ := exists_of_bind h
    rcases of_orElse hform with hform | hform
    · obtain ⟨_, _, hword, -⟩ := exists_of_bind hform
      exact opensArguments_of_keyword (by decide) rfl (by decide) hword
    · obtain ⟨_, _, hword, -⟩ := exists_of_bind hform
      exact opensArguments_of_keyword (by decide) rfl (by decide) hword

theorem carries_resumeForm (hb : Border x y) : Carries x y n EndsStatement resumeForm := by
  refine (steady_keyword hb (by decide)).before fun _ =>
    (steady_keyword hb (w := "NEXT") (by decide)).attempt.before fun found => ?_
  cases found with
  | some _ => exact .pure _
  | none =>
    refine (steady_wholeNumber hb).optional.before fun line => ?_
    split <;> exact .pure _

theorem carries_bareForm (hb : Border x y) (h : isClear w = true) (command : Command) :
    Carries x y n EndsStatement (bareForm w command) :=
  (steady_keyword hb h).before fun _ => .pure _

theorem carries_swapForm (hb : Border x y) : Carries x y n EndsStatement swapForm :=
  (steady_keyword hb (by decide)).before fun _ => (carries_anyTarget hb).seq fun _ =>
    (steady_comma hb).before fun _ => (carries_anyTarget hb).map _

theorem carries_randomizeForm (hb : Border x y) : Carries x y n EndsStatement randomizeForm := by
  refine (steady_keyword hb (by decide)).before fun _ v v' command hn hQ h => ?_
  have hexpression : Carries x y n EndsStatement
      ((fun e => Command.randomize (some e)) <$> expression) := (carries_lastExpression hb).map _
  obtain ⟨_, _, hleft, h⟩ := exists_of_bind h
  obtain ⟨rfl, rfl⟩ := Outcome.accepted.inj hleft
  refine (bind_of_accepted (p := remaining) rfl).trans ?_
  rw [hb.atStatementEnd_append v] at h
  split at h
  next hend =>
    obtain ⟨rfl, hv⟩ := Outcome.accepted.inj h
    rw [if_pos hend, List.append_cancel_right hv]
    rfl
  next hend =>
    rw [if_neg hend]
    exact hexpression hn hQ h

theorem carries_commonForm (hb : Border x y) : Carries x y n EndsStatement commonForm :=
  (steady_keyword hb (by decide)).before fun _ => (carries_nameList hb).map _

theorem carries_eraseForm (hb : Border x y) : Carries x y n EndsStatement eraseForm :=
  (steady_keyword hb (by decide)).before fun _ => (carries_nameList hb).map _

theorem carries_interactiveForm (hb : Border x y) (h : isClear w = true) :
    Carries x y n EndsStatement (interactiveForm w) :=
  (steady_keyword hb h).before fun _ => (carries_takeWhile hb).map _

theorem carries_deviceForm (hb : Border x y) : Carries x y n EndsStatement deviceForm := by
  have hword : Steady x y (keywordOf deviceWords) := by
    refine .firstOf (List.forall_mem_map.2 fun w hw => ?_)
    exact (steady_keyword hb ((by decide : ∀ w ∈ deviceWords, isClear w = true) w hw)).map _
  have hmark : Steady x y
      (exactly [','] <|> exactly [';'] <|> exactly ['#'] <|> keyword "AS") :=
    (steady_exactly hb (by decide)).orElse <| (steady_exactly hb (by decide)).orElse <|
      (steady_exactly hb (by decide)).orElse (steady_keyword hb (by decide))
  have hopen (r : List Char)
      (hr : accepts (exactly [','] <|> exactly [';'] <|> exactly ['#'] <|> keyword "AS") r = true) :
      lead? r ≠ some '(' := by
    obtain ⟨found, rest, h⟩ := exists_of_accepts hr
    rcases of_orElse h with h | h
    · rw [lead?_of_exactly (by decide) h]
      decide
    rcases of_orElse h with h | h
    · rw [lead?_of_exactly (by decide) h]
      decide
    rcases of_orElse h with h | h
    · rw [lead?_of_exactly (by decide) h]
      decide
    · obtain ⟨c, hlead, hc⟩ := lead?_of_keyword (by decide) rfl h
      rw [hlead]
      rintro ⟨⟩
      exact absurd hc (by decide)
  have hitems : Carries x y n EndsStatement (repeated deviceStep) := by
    have hprogress := progresses_deviceStep
    have hadvances : deviceStep.Advances := inferInstance
    rw [deviceStep_eq] at hprogress hadvances ⊢
    exact carries_items hb hmark hopen hprogress hadvances
  rw [deviceForm_eq]
  exact hword.before fun w => hitems.map _

end LineBasic.Grammar
