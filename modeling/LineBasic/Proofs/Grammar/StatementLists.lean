import LineBasic.Proofs.Grammar.StatementKinds
import LineBasic.Proofs.Graph.SpelledOut

/-!
# Conditionals, arms and lists of statements

What is read where an `IF` stands (`Grammar.statement_of_parts`), what an arm is made of
(`Grammar.of_arm`), and what one round over a list of statements has read
(`Grammar.statementsStep_iff`). Where nothing but `ELSE` or the end of the line follows a line
number, an arm is read to the same place whether it is the number (`Grammar.arm_of_number`) or a
`GOTO` with the number (`Grammar.arm_of_goto`).

The size of the line shows in the columns of the statements only, which spelling out drops
(`Grammar.alike_statements`). That is said for parsers in general: two of them are alike if they do
the same with every input, up to a part of their values (`Parser.Alike`).
-/

namespace LineBasic

/-! ## Parsers that do the same up to a part of their values -/

/-- The same, up to what `f` leaves of the value. -/
inductive Outcome.Alike {α γ : Type} (f : α → γ) : Outcome α → Outcome α → Prop
  | accepted {a a' : α} (h : f a = f a') (rest : List Char) :
    Alike f (.accepted a rest) (.accepted a' rest)
  | refused (place : List Char) : Alike f (.refused place) (.refused place)
  | aborted (place : List Char) : Alike f (.aborted place) (.aborted place)

namespace Parser

variable {α β γ δ : Type} {p q p' q' : Parser α}

/-- The parsers do the same with every input, up to what `f` leaves of the values. -/
def Alike (f : α → γ) (p q : Parser α) : Prop := ∀ s, Outcome.Alike f (p s) (q s)

namespace Alike

variable {f : α → γ} {g : β → δ}

theorem refl (f : α → γ) (p : Parser α) : Alike f p p := by
  intro s
  cases p s with
  | accepted a rest => exact .accepted rfl rest
  | refused place => exact .refused place
  | aborted place => exact .aborted place

theorem pure {a a' : α} (h : f a = f a') : Alike f (Pure.pure a) (Pure.pure a') :=
  fun s => .accepted h s

theorem bind (h : Alike f p q) {k k' : α → Parser β}
    (hk : ∀ a a', f a = f a' → Alike g (k a) (k' a')) : Alike g (p >>= k) (q >>= k') := by
  intro s
  change Outcome.Alike g (Parser.bind p k s) (Parser.bind q k' s)
  rw [Parser.bind, Parser.bind]
  have hs := h s
  generalize p s = o at hs
  generalize q s = o' at hs
  cases hs with
  | accepted ha rest => exact hk _ _ ha rest
  | refused place => exact .refused place
  | aborted place => exact .aborted place

theorem map (h : Alike f p q) {k k' : α → β} (hk : ∀ a a', f a = f a' → g (k a) = g (k' a')) :
    Alike g (k <$> p) (k' <$> q) :=
  h.bind fun a a' ha => pure (hk a a' ha)

theorem orElse (h : Alike f p q) (h' : Alike f p' q') : Alike f (p.orElse p') (q.orElse q') := by
  intro s
  rw [Parser.orElse, Parser.orElse]
  have hs := h s
  generalize p s = o at hs
  generalize q s = o' at hs
  cases hs with
  | accepted ha rest => exact .accepted ha rest
  | refused place => exact h' s
  | aborted place => exact .aborted place

theorem optional (h : Alike f p q) : Alike (Option.map f) (optional p) (optional q) := by
  intro s
  rw [Parser.optional, Parser.optional]
  have hs := h s
  generalize p s = o at hs
  generalize q s = o' at hs
  cases hs with
  | @accepted a a' ha rest =>
    have hsome : Option.map f (some a) = Option.map f (some a') := congrArg some ha
    exact .accepted hsome rest
  | refused place => exact .accepted rfl s
  | aborted place => exact .aborted place

theorem firstOf {parsers parsers' : List (Parser α)}
    (h : List.Forall₂ (Alike f) parsers parsers') :
    Alike f (firstOf parsers) (firstOf parsers') := by
  induction h with
  | nil => exact refl f _
  | @cons p p' rest rest' hp hrest ih =>
    cases hrest with
    | nil => exact hp
    | cons => exact hp.orElse ih

/-- A repetition whose rounds do the same. -/
theorem repeated {f : List α → List γ} (happend : ∀ xs ys, f (xs ++ ys) = f xs ++ f ys)
    {step step' : Parser (List α × Bool)} (h : Alike (Prod.map f id) step step') :
    Alike f (repeated step) (repeated step') := by
  have rounds (n : Nat) : Alike f (gather step n) (gather step' n) := by
    induction n with
    | zero => exact refl f _
    | succ n ih =>
      refine h.bind fun r r' hr => ?_
      obtain ⟨items, goesOn⟩ := r
      obtain ⟨items', goesOn'⟩ := r'
      obtain ⟨hitems, rfl⟩ : f items = f items' ∧ goesOn = goesOn' := Prod.mk.inj hr
      cases goesOn with
      | false => exact .pure hitems
      | true =>
        refine ih.map fun more more' hmore => ?_
        rw [happend, happend, hitems, hmore]
  exact fun s => rounds (s.length + 1) s

/-- What the one accepts the other one accepts. -/
theorem exists_accepted (h : Alike f p q) {s rest : List Char} {a : α}
    (ha : p s = .accepted a rest) : ∃ a', q s = .accepted a' rest ∧ f a' = f a := by
  have hs := h s
  rw [ha] at hs
  generalize q s = o' at hs
  cases hs with
  | accepted ha rest => exact ⟨_, rfl, ha.symm⟩

end Alike

end Parser

namespace Grammar

open LineBasic.Parser

/-! ## Lines of different sizes -/

section Sizes

variable {inner inner' : Parser (List Statement)} (size size' number : Nat)

theorem alike_arm (h : Alike spelledOutList inner inner') :
    Alike (Arm.spelledOut number) (arm inner) (arm inner') := by
  have hblock : Alike (Arm.spelledOut number) (Arm.block <$> inner) (Arm.block <$> inner') :=
    h.map fun xs ys hxs => by rw [Arm.spelledOut, Arm.spelledOut, hxs]
  intro s
  rw [arm, arm]
  split
  · split
    · exact .accepted rfl _
    · exact hblock s
  · exact hblock s

theorem alike_thenArm (h : Alike spelledOutList inner inner') :
    Alike (Arm.spelledOut number) (thenArm inner) (thenArm inner') :=
  Alike.orElse ((Alike.refl id _).bind fun _ _ _ => alike_arm number h) (.refl _ _)

theorem alike_elseArm (h : Alike spelledOutList inner inner') :
    Alike (Option.map (Arm.spelledOut number)) (optional (keyword "ELSE" >>= fun _ => arm inner))
      (optional (keyword "ELSE" >>= fun _ => arm inner')) :=
  ((Alike.refl id (keyword "ELSE")).bind fun _ _ _ => alike_arm number h).optional

/-- A conditional spelled out is made of its arms spelled out. -/
theorem spelledOut_conditional {line column column' : Nat} {condition : Expr Float}
    {a a' : Arm} {b b' : Option Arm} (ha : a.spelledOut line = a'.spelledOut line)
    (hb : b.map (Arm.spelledOut line) = b'.map (Arm.spelledOut line)) :
    (Statement.conditional ⟨line, column⟩ condition a b).spelledOut =
      (Statement.conditional ⟨line, column'⟩ condition a' b').spelledOut := by
  cases b <;> cases b' <;> simp_all [Statement.spelledOut]

theorem alike_conditionalForm (h : Alike spelledOutList inner inner') (column column' : Nat) :
    Alike Statement.spelledOut (conditionalForm inner ⟨number, column⟩)
      (conditionalForm inner' ⟨number, column'⟩) := by
  refine (Alike.refl id _).bind fun _ _ _ => (Alike.refl id _).bind fun condition _ hcondition => ?_
  obtain rfl : condition = _ := hcondition
  refine (alike_thenArm number h).bind fun a a' ha => ?_
  exact (alike_elseArm number h).map fun b b' hb => spelledOut_conditional ha hb

theorem alike_statementWith (h : Alike spelledOutList inner inner') :
    Alike Statement.spelledOut (statementWith inner size number)
      (statementWith inner' size' number) := by
  refine (Alike.refl id blanks).bind fun _ _ _ => ?_
  refine (Alike.refl id remaining).bind fun rest _ hrest => ?_
  obtain rfl : rest = _ := hrest
  have hcommand (form : Parser Command) (column column' : Nat) :
      Alike Statement.spelledOut (Statement.command ⟨number, column⟩ <$> form)
        (Statement.command ⟨number, column'⟩ <$> form) :=
    (Alike.refl id form).map fun c _ hc => by
      obtain rfl : c = _ := hc
      rfl
  refine .firstOf (.cons (hcommand _ _ _) (.cons (hcommand _ _ _)
    (.cons (alike_conditionalForm number h _ _) ?_)))
  change List.Forall₂ _ (List.map _ _) (List.map _ _)
  rw [List.forall₂_map_left_iff, List.forall₂_map_right_iff]
  exact List.forall₂_same.2 fun form _ => hcommand form _ _

theorem alike_statementsStep (h : Alike spelledOutList inner inner') :
    Alike (Prod.map spelledOutList id) (statementsStep inner size number)
      (statementsStep inner' size' number) := by
  refine (Alike.refl id blanks).bind fun _ _ _ => ?_
  refine (Alike.refl id remaining).bind fun rest _ hrest => ?_
  obtain rfl : rest = _ := hrest
  split
  · exact .refl _ _
  · exact .refl _ _
  · split
    · exact .refl _ _
    · refine (alike_statementWith size size' number h).bind fun st st' hst => ?_
      have hlist : spelledOutList [st] = spelledOutList [st'] := by
        rw [spelledOutList, spelledOutList, hst]
        rfl
      refine (Alike.refl id blanks).bind fun _ _ _ => ?_
      refine (Alike.refl id remaining).bind fun left _ hleft => ?_
      obtain rfl : left = _ := hleft
      split <;> exact .pure (Prod.ext hlist rfl)

/-- The size of the line shows in the columns only. -/
theorem alike_statements :
    Alike spelledOutList (statements size number) (statements size' number) := by
  have hnested (depth : Nat) : Alike spelledOutList (statementsNested size number depth)
      (statementsNested size' number depth) := by
    induction depth with
    | zero => exact .refl _ _
    | succ depth ih =>
      exact .repeated spelledOutList_append (alike_statementsStep size size' number ih)
  exact fun s => hnested (s.length + 1) s

end Sizes

/-! ## Blanks -/

section Blanks

variable {size number : Nat} {lead s : List Char} {α : Type}

/-- The texts are the same but for blanks at the front. -/
def SameDark (r r' : List Char) : Prop := r.dropWhile Text.isBlank = r'.dropWhile Text.isBlank

theorem sameDark_append (hlead : IsBlank lead) (s : List Char) : SameDark (lead ++ s) s :=
  List.dropWhile_append_of_pos hlead

theorem SameDark.exists_blanks {r r' : List Char} (h : SameDark r r') :
    ∃ lead lead' dark, blanks r = .accepted lead dark ∧ blanks r' = .accepted lead' dark :=
  ⟨_, _, _, rfl, congrArg (Outcome.accepted _) h.symm⟩

theorem SameDark.after_blanks {r r' : List Char} (h : SameDark r r') {f : List Char → Parser α}
    (hf : ∀ l l', f l = f l') : (blanks >>= f) r = (blanks >>= f) r' := by
  obtain ⟨lead, lead', dark, hr, hr'⟩ := h.exists_blanks
  rw [bind_of_accepted hr, bind_of_accepted hr', hf]

theorem SameDark.keyword_eq {r r' : List Char} (h : SameDark r r') (w : String) :
    keyword w r = keyword w r' := h.after_blanks fun _ _ => rfl

theorem SameDark.keyword_bind_eq {r r' : List Char} (h : SameDark r r') (w : String)
    (f : String → Parser α) : (keyword w >>= f) r = (keyword w >>= f) r' := by
  change Parser.bind _ _ _ = Parser.bind _ _ _
  rw [Parser.bind, Parser.bind, h.keyword_eq]

theorem SameDark.statement_eq {r r' : List Char} (h : SameDark r r') :
    statement size number r = statement size number r' := by
  rw [Grammar.statement_eq]
  exact h.after_blanks fun _ _ => rfl

theorem SameDark.statements_eq {r r' : List Char} (h : SameDark r r') :
    statements size number r = statements size number r' := by
  have hstep : statementsStep (statements size number) size number r =
      statementsStep (statements size number) size number r' := h.after_blanks fun _ _ => rfl
  rw [statements_eq_round]
  change Parser.bind _ _ _ = Parser.bind _ _ _
  rw [Parser.bind, Parser.bind, hstep]

/-- What may be missing leaves the same. -/
theorem SameDark.optional {r r' t : List Char} (h : SameDark r r') {p : Parser α} (hp : p r = p r')
    {found : Option α} (hfound : optional p r = .accepted found t) :
    ∃ t', Parser.optional p r' = .accepted found t' ∧ SameDark t t' := by
  rcases of_optional hfound with ⟨a, rfl, ha⟩ | ⟨rfl, rfl, place, hno⟩
  · exact ⟨t, optional_of_accepted (hp ▸ ha), rfl⟩
  · exact ⟨r', optional_of_refused (hp ▸ hno), h⟩

theorem trimStart_skip (hlead : IsBlank lead) (s : List Char) :
    Text.trimStart (lead ++ s) = Text.trimStart s :=
  List.dropWhile_append_of_pos fun c hc => Text.isWhite_of_isBlank (hlead c hc)

end Blanks

/-! ## Conditionals -/

section

variable {size number : Nat} {s t rest lead : List Char} {inner : Parser (List Statement)}
  {st : Statement} {place : Place} {a : Arm} {n : Nat}

theorem of_conditionalForm (h : conditionalForm inner place s = .accepted st rest) :
    ∃ word s₁ condition s₂ onTrue s₃ onFalse, keyword "IF" s = .accepted word s₁ ∧
      expression s₁ = .accepted condition s₂ ∧ thenArm inner s₂ = .accepted onTrue s₃ ∧
      optional (keyword "ELSE" >>= fun _ => arm inner) s₃ = .accepted onFalse rest ∧
      st = .conditional place condition onTrue onFalse := by
  obtain ⟨word, s₁, hif, h⟩ := exists_of_bind h
  obtain ⟨condition, s₂, hcondition, h⟩ := exists_of_bind h
  obtain ⟨onTrue, s₃, htrue, h⟩ := exists_of_bind h
  obtain ⟨onFalse, _, hfalse, heq⟩ := exists_of_bind h
  obtain ⟨rfl, rfl⟩ := Outcome.accepted.inj heq
  exact ⟨word, s₁, condition, s₂, onTrue, s₃, onFalse, hif, hcondition, htrue, hfalse, rfl⟩

theorem conditionalForm_of_parts {word : String} {condition : Expr Float} {onTrue : Arm}
    {onFalse : Option Arm} {s₁ s₂ s₃ : List Char} (hif : keyword "IF" s = .accepted word s₁)
    (hcondition : expression s₁ = .accepted condition s₂)
    (htrue : thenArm inner s₂ = .accepted onTrue s₃)
    (hfalse : optional (keyword "ELSE" >>= fun _ => arm inner) s₃ = .accepted onFalse rest) :
    conditionalForm inner place s = .accepted (.conditional place condition onTrue onFalse) rest :=
  (bind_of_accepted hif).trans <| (bind_of_accepted hcondition).trans <|
    (bind_of_accepted htrue).trans <| (bind_of_accepted hfalse).trans rfl

theorem of_thenArm (h : thenArm inner s = .accepted a rest) :
    (∃ word t, keyword "THEN" s = .accepted word t ∧ arm inner t = .accepted a rest) ∨
      ∃ word t n, keyword "GOTO" s = .accepted word t ∧ wholeNumber t = .accepted n rest ∧
        a = .line n := by
  rcases of_orElse h with h | h
  · obtain ⟨word, t, hword, harm⟩ := exists_of_bind h
    exact .inl ⟨word, t, hword, harm⟩
  · obtain ⟨word, t, hword, h⟩ := exists_of_bind h
    obtain ⟨n, _, hn, heq⟩ := exists_of_bind h
    obtain ⟨rfl, rfl⟩ := Outcome.accepted.inj heq
    exact .inr ⟨word, t, n, hword, hn, rfl⟩

theorem thenArm_of_then {word : String} (hword : keyword "THEN" s = .accepted word t)
    (h : arm inner t = .accepted a rest) : thenArm inner s = .accepted a rest :=
  orElse_of_accepted ((bind_of_accepted hword).trans h)

theorem thenArm_of_goto {word : String} {n : Nat} (hword : keyword "GOTO" s = .accepted word t)
    (h : wholeNumber t = .accepted n rest) : thenArm inner s = .accepted (.line n) rest := by
  have hno : accepts (keyword "THEN") s = false :=
    keyword_apart (by decide) (accepts_of_accepted hword)
  obtain ⟨place, hthen⟩ := keyword_of_not_accepts hno
  exact (orElse_of_refused (bind_of_refused hthen)).trans
    ((bind_of_accepted hword).trans (map_of_accepted h))

instance {inner : Parser (List Statement)} [inner.Advances] : (thenArm inner).Advances := by
  unfold thenArm
  infer_instance

/-- A remark begins with `REM` or a quotation mark. -/
theorem remarkForm_of_lead? (h : ∀ c ∈ lead? s, foldCase c ≠ 'r' ∧ c ≠ '\'') :
    ∃ place, remarkForm s = .refused place := by
  obtain ⟨lead, dark, rfl, hlead, hdark, -⟩ := exists_of_blanks s
  rw [lead?_append hlead hdark] at h
  have hrem : word "REM" dark = .refused dark :=
    word_of_head (by decide) rfl fun c hc => (h c hc).1
  have hquote : exactly ['\''] dark = .refused dark := by
    rw [exactly, if_neg]
    intro hprefix
    obtain ⟨more, rfl⟩ := List.isPrefixOf_iff_prefix.1 hprefix
    exact (h '\'' rfl).2 rfl
  exact ⟨dark, (after_blanks hlead hdark).trans
    (bind_of_refused ((orElse_of_refused hrem).trans hquote))⟩

theorem remarkForm_of_if (h : accepts (keyword "IF") s = true) :
    ∃ place, remarkForm s = .refused place := by
  obtain ⟨found, rest, h⟩ := exists_of_accepts h
  obtain ⟨c, hhead, hc⟩ := lead?_of_keyword (by decide) rfl h
  refine remarkForm_of_lead? fun d hd => ?_
  obtain rfl : c = d := Option.some.inj (hhead.symm.trans hd)
  refine ⟨hc ▸ by decide, ?_⟩
  rintro rfl
  exact absurd hc (by decide)

/-- The parts of a statement that is read as an `IF`. -/
theorem of_statement_conditional {place : Place} {condition : Expr Float} {onTrue : Arm}
    {onFalse : Option Arm}
    (h : statement size number s = .accepted (.conditional place condition onTrue onFalse) rest) :
    ∃ word s₁ s₂ s₃ column, place = ⟨number, column⟩ ∧ keyword "IF" s = .accepted word s₁ ∧
      expression s₁ = .accepted condition s₂ ∧
      thenArm (statements size number) s₂ = .accepted onTrue s₃ ∧
      optional (keyword "ELSE" >>= fun _ => arm (statements size number)) s₃ =
        .accepted onFalse rest := by
  obtain ⟨lead, dark, rfl, hlead, hdark, -⟩ := exists_of_blanks s
  have hsame := sameDark_append hlead dark
  rw [hsame.statement_eq, statement_eq] at h
  rw [hsame.keyword_eq]
  cases (readAs_of_statementWith hdark h).1 with
  | conditional h =>
    obtain ⟨word, s₁, condition, s₂, onTrue, s₃, onFalse, hif, hcondition, htrue, hfalse, heq⟩ :=
      of_conditionalForm h
    cases heq
    exact ⟨word, s₁, s₂, s₃, _, rfl, hif, hcondition, htrue, hfalse⟩

theorem statement_of_parts {word : String} {condition : Expr Float} {onTrue : Arm}
    {onFalse : Option Arm} {s₁ s₂ s₃ : List Char} (hif : keyword "IF" s = .accepted word s₁)
    (hcondition : expression s₁ = .accepted condition s₂)
    (htrue : thenArm (statements size number) s₂ = .accepted onTrue s₃)
    (hfalse : optional (keyword "ELSE" >>= fun _ => arm (statements size number)) s₃ =
      .accepted onFalse rest) :
    ∃ column, statement size number s =
      .accepted (.conditional ⟨number, column⟩ condition onTrue onFalse) rest := by
  obtain ⟨lead, dark, rfl, hlead, hdark, -⟩ := exists_of_blanks s
  have hsame := sameDark_append hlead dark
  rw [hsame.keyword_eq] at hif
  obtain ⟨_, hremark⟩ := remarkForm_of_if (accepts_of_accepted hif)
  rw [hsame.statement_eq, statement_eq]
  exact ⟨_, statementWith_of_conditional hdark hremark
    (conditionalForm_of_parts hif hcondition htrue hfalse)⟩

/-- A statement belongs to the line that it is read on. -/
theorem line_of_statement {s rest : List Char} (hdark : StartsDark s)
    (h : statement size number s = .accepted st rest) : st.line = number := by
  rw [statement_eq] at h
  cases (readAs_of_statementWith hdark h).1 with
  | conditional h =>
    obtain ⟨_, _, _, _, _, _, _, -, -, -, -, rfl⟩ := of_conditionalForm h
    rfl
  | remark | print | word | assign => rfl

/-! ## Arms -/

theorem of_arm (h : arm inner s = .accepted a rest) :
    (∃ n, wholeNumber s = .accepted n rest ∧ EndsStatement rest ∧ a = .line n) ∨
      (∀ n t, wholeNumber s = .accepted n t → ¬ EndsStatement t) ∧
        ∃ block, inner s = .accepted block rest ∧ a = .block block := by
  have of_block (h : (Arm.block <$> inner) s = .accepted a rest) :
      ∃ block, inner s = .accepted block rest ∧ a = .block block := by
    obtain ⟨block, t, hblock, heq⟩ := exists_of_bind h
    obtain ⟨rfl, rfl⟩ := Outcome.accepted.inj heq
    exact ⟨block, hblock, rfl⟩
  rw [arm] at h
  split at h
  next n t hn =>
    split at h
    next hend =>
      obtain ⟨rfl, rfl⟩ := Outcome.accepted.inj h
      exact .inl ⟨n, hn, hend, rfl⟩
    next hend =>
      refine .inr ⟨fun n' t' hn' => ?_, of_block h⟩
      obtain ⟨-, rfl⟩ := Outcome.accepted.inj (hn.symm.trans hn')
      exact hend
  next hno => exact .inr ⟨fun n t hn => absurd hn (hno n t), of_block h⟩

theorem arm_of_block {block : List Statement}
    (hno : ∀ n t, wholeNumber s = .accepted n t → ¬ EndsStatement t)
    (h : inner s = .accepted block rest) : arm inner s = .accepted (.block block) rest := by
  rw [arm]
  split
  next n t hn => exact (if_neg (hno n t hn)).trans (map_of_accepted h)
  next => exact map_of_accepted h

theorem arm_of_line {n : Nat} (hn : wholeNumber s = .accepted n rest) (hend : EndsStatement rest) :
    arm inner s = .accepted (.line n) rest := by
  rw [arm, hn]
  exact if_pos hend

/-! ## Rounds over statements -/

/-- What a round over statements has read behind the blanks before it. -/
inductive ReadRound (inner : Parser (List Statement)) (size number : Nat) (s : List Char) :
    List Statement → Bool → List Char → Prop
  | stop : s = [] ∨ accepts (keyword "ELSE") s = true → ReadRound inner size number s [] false s
  | colon {t : List Char} : s = ':' :: t → ReadRound inner size number s [] true t
  | statement {st : Statement} {lead t rest : List Char} : s ≠ [] → s.head? ≠ some ':' →
    accepts (keyword "ELSE") s = false → statementWith inner size number s = .accepted st t →
    blanks t = .accepted lead rest →
    ReadRound inner size number s [st] (rest.head? == some ':' || rest.head? == some '\'') rest

/-- A colon or a quotation mark behind a statement. -/
theorem goesOn_eq (xs : List Statement) (s : List Char) :
    (match s with
      | ':' :: _ | '\'' :: _ => Pure.pure (xs, true)
      | _ => Pure.pure (xs, false) : Parser (List Statement × Bool)) =
        Pure.pure (xs, s.head? == some ':' || s.head? == some '\'') := by
  split
  next => rfl
  next => rfl
  next hcolon hquote =>
    rcases s with _ | ⟨c, more⟩
    · rfl
    · have hc : c ≠ ':' := fun h => hcolon more (h ▸ rfl)
      have hq : c ≠ '\'' := fun h => hquote more (h ▸ rfl)
      change Pure.pure (xs, false) = Pure.pure (xs, c == ':' || c == '\'')
      rw [beq_false_of_ne hc, beq_false_of_ne hq]
      rfl

theorem statementsStep_iff {lead dark : List Char} {items : List Statement} {goesOn : Bool}
    (hs : blanks s = .accepted lead dark) :
    statementsStep inner size number s = .accepted (items, goesOn) rest ↔
      ReadRound inner size number dark items goesOn rest := by
  have hstep : statementsStep inner size number s = _ :=
    (bind_of_accepted hs).trans (bind_of_accepted (p := remaining) rfl)
  rw [hstep]
  constructor
  · intro h
    split at h
    next =>
      cases h
      exact .stop (.inl rfl)
    next t =>
      obtain ⟨_, u, hcolon, heq⟩ := exists_of_bind h
      cases heq
      obtain ⟨-, rfl⟩ := Outcome.accepted.inj ((exactly_append [':'] t).symm.trans hcolon)
      exact .colon rfl
    next hnil hcolon =>
      split at h
      next helse =>
        cases h
        exact .stop (.inr helse)
      next helse =>
        obtain ⟨st, t, hst, h⟩ := exists_of_bind h
        obtain ⟨lead', u, hblanks, h⟩ := exists_of_bind h
        obtain ⟨_, _, hleft, h⟩ := exists_of_bind h
        obtain ⟨rfl, rfl⟩ := Outcome.accepted.inj hleft
        cases (congrFun (goesOn_eq [st] u) u).symm.trans h
        refine .statement hnil ?_ (eq_false_of_ne_true helse) hst hblanks
        intro hhead
        obtain ⟨more, rfl⟩ := List.head?_eq_some_iff.1 hhead
        exact hcolon more rfl
  · intro h
    cases h with
    | stop hend =>
      rcases hend with rfl | helse
      · rfl
      · split
        · rfl
        · rw [accepts_of_refused (t := _) (keyword_of_head (by decide) rfl
            (startsDark_cons (by decide)) (by rintro _ ⟨⟩; decide))] at helse
          cases helse
        · rw [if_pos helse]
          rfl
    | colon hcolon =>
      subst hcolon
      exact (bind_of_accepted (exactly_append [':'] rest)).trans rfl
    | statement hnil hcolon helse hst hblanks =>
      split
      · exact absurd rfl hnil
      · exact absurd rfl hcolon
      · rw [helse, if_neg Bool.false_ne_true]
        refine (bind_of_accepted hst).trans ((bind_of_accepted hblanks).trans ?_)
        refine (bind_of_accepted (p := remaining) rfl).trans ?_
        exact congrFun (goesOn_eq _ rest) rest

/-- The round that reads an `IF`. -/
theorem statementsStep_of_if {lead : List Char} (hif : accepts (keyword "IF") s = true)
    (hst : statement size number s = .accepted st t) (ht : blanks t = .accepted lead rest) :
    statementsStep (statements size number) size number s =
      .accepted ([st], rest.head? == some ':' || rest.head? == some '\'') rest := by
  obtain ⟨lead', dark, rfl, hlead, hdark, hs⟩ := exists_of_blanks s
  have hsame := sameDark_append hlead dark
  rw [hsame.statement_eq, statement_eq] at hst
  obtain ⟨found, after, hfound⟩ := exists_of_accepts hif
  obtain ⟨c, hhead, hc⟩ := lead?_of_keyword (by decide) rfl hfound
  rw [lead?_append hlead hdark] at hhead
  rw [accepts, hsame.keyword_eq, ← accepts] at hif
  refine (statementsStep_iff hs).2 (.statement ?_ ?_ (keyword_apart (by decide) hif) hst ht)
  · rintro rfl
    cases hhead
  · rw [hhead]
    rintro ⟨⟩
    exact absurd hc (by decide)

/-! ## A number or a `GOTO` as an arm -/

/-- Nothing but blanks up to `ELSE` or the end of the line. -/
def EndsArm (rest : List Char) : Prop :=
  rest.dropWhile Text.isBlank = [] ∨ accepts (keyword "ELSE") rest = true

theorem of_foldCase_eq_e {c : Char} (h : foldCase c = 'e') : c = 'e' ∨ c = 'E' := by
  have hk : foldCase c ≠ 'k' := h ▸ by decide
  rw [foldCase_eq_toLower hk, eq_iff_toNat_eq, toNat_toLower] at h
  rw [eq_iff_toNat_eq, eq_iff_toNat_eq]
  simp only [Char.reduceToNat] at h ⊢
  split at h <;> omega

/-- What follows the blanks is nothing or `ELSE`. -/
theorem EndsArm.exists_dark (h : EndsArm rest) :
    ∃ lead dark, rest = lead ++ dark ∧ IsBlank lead ∧ blanks rest = .accepted lead dark ∧
      (dark = [] ∨ ∃ c more, dark = c :: more ∧ (c = 'e' ∨ c = 'E') ∧
        accepts (keyword "ELSE") dark = true) := by
  obtain ⟨lead, dark, rfl, hlead, hdark, hblanks⟩ := exists_of_blanks rest
  refine ⟨lead, dark, rfl, hlead, hblanks, ?_⟩
  rcases h with h | h
  · exact .inl ((Outcome.accepted.inj hblanks).2.symm.trans h)
  · obtain ⟨found, after, helse⟩ := exists_of_accepts h
    obtain ⟨_ | ⟨c, front⟩, more, rfl, hfront⟩ := begins_of_keyword (by decide) hlead hdark helse
    · cases hfront
    · have hc : foldCase c = 'e' := (List.cons.inj hfront).1
      have hkeyword : keyword "ELSE" (c :: (front ++ more)) = .accepted found after :=
        (after_blanks isBlank_nil hdark).trans ((after_blanks hlead hdark).symm.trans helse)
      exact .inr ⟨c, front ++ more, rfl, of_foldCase_eq_e hc, accepts_of_accepted hkeyword⟩

theorem EndsArm.atStatementEnd (h : EndsArm rest) : atStatementEnd rest = true := by
  obtain ⟨lead, dark, rfl, hlead, -, hdark⟩ := h.exists_dark
  have htrim : Text.trimStart (lead ++ dark) = Text.trimStart dark :=
    List.dropWhile_append_of_pos fun c hc => Text.isWhite_of_isBlank (hlead c hc)
  rw [Grammar.atStatementEnd, htrim]
  rcases hdark with rfl | ⟨c, more, rfl, rfl | rfl, helse⟩
  · rfl
  · exact helse
  · exact helse

/-- A number that is all of an arm. -/
theorem arm_of_number (inner : Parser (List Statement)) (h : wholeNumber s = .accepted n rest)
    (hend : EndsArm rest) : arm inner s = .accepted (.line n) rest := by
  rw [arm, h]
  exact if_pos hend.atStatementEnd

/-- A number begins with a blank or a digit. -/
theorem not_isAlpha_of_wholeNumber (h : wholeNumber s = .accepted n rest) :
    ∀ c ∈ s.head?, ¬ c.isAlpha := by
  obtain ⟨front, t, hblanks, hthen⟩ := exists_of_bind h
  obtain ⟨digits, after, hdigits, -⟩ := exists_of_bind (of_wholly hthen)
  obtain ⟨rfl, hfront, -⟩ := of_takeWhile hblanks
  obtain ⟨rfl, hne, hall, -⟩ := of_takeWhile1 hdigits
  rintro c hc halpha
  rw [isAlpha_iff] at halpha
  rcases front with _ | ⟨d, front⟩
  · rcases digits with _ | ⟨d, digits⟩
    · exact hne rfl
    · obtain rfl : d = c := Option.some.inj hc
      have hdigit := (isDigit_iff d).1 (hall d List.mem_cons_self)
      omega
  · obtain rfl : d = c := Option.some.inj hc
    have hblank := (Text.isBlank_iff d).1 (hfront d List.mem_cons_self)
    omega

theorem gotoForm_of_number (h : wholeNumber s = .accepted n rest) :
    gotoForm ("GOTO".toList ++ s) = .accepted (.goto n) rest := by
  have hword : keyword "GOTO" ([] ++ ("GOTO".toList ++ s)) = .accepted _ s :=
    keyword_append (by decide) isBlank_nil rfl (startsDark_cons (by decide))
      (not_isAlpha_of_wholeNumber h)
  exact (bind_of_accepted hword).trans (map_of_accepted h)

/-- A `GOTO` that is all of an arm. -/
theorem arm_of_goto (size number : Nat) (hlead : IsBlank lead)
    (h : wholeNumber s = .accepted n rest) (hend : EndsArm rest) :
    ∃ column, arm (statements size number) (lead ++ ("GOTO".toList ++ s)) =
      .accepted (.block [.command ⟨number, column⟩ (.goto n)]) (rest.dropWhile Text.isBlank) := by
  have hdark : StartsDark ("GOTO".toList ++ s) := startsDark_cons (by decide)
  have hnumber : wholeNumber (lead ++ ("GOTO".toList ++ s)) = .refused ("GOTO".toList ++ s) := by
    have hdigits : takeWhile1 Char.isDigit ("GOTO".toList ++ s) =
        .refused ("GOTO".toList ++ s) := by
      refine takeWhile1_of_head ?_
      rintro _ ⟨⟩
      decide
    exact (after_blanks hlead hdark).trans (wholly_of_refused (bind_of_refused hdigits))
  obtain ⟨_, hremark⟩ : ∃ place, remarkForm ("GOTO".toList ++ s) = .refused place := by
    refine remarkForm_of_lead? ?_
    rintro _ ⟨⟩
    decide
  have helse : accepts (keyword "ELSE") ("GOTO".toList ++ s) = false := by
    refine accepts_of_refused (keyword_of_head (by decide) rfl hdark ?_)
    rintro _ ⟨⟩
    decide
  have hgoto : statementWith (statements size number) size number ("GOTO".toList ++ s) = _ :=
    statementWith_of_word hdark hremark (e := (["GOTO"], gotoForm)) (by simp [wordForms])
      (gotoForm_of_number h)
  obtain ⟨lead', dark, rfl, -, hblanks, hend⟩ := hend.exists_dark
  have hdrop : (lead' ++ dark).dropWhile Text.isBlank = dark := (Outcome.accepted.inj hblanks).2
  have hlast : (dark.head? == some ':' || dark.head? == some '\'') = false := by
    rcases hend with rfl | ⟨c, more, rfl, rfl | rfl, -⟩ <;> rfl
  have hstep := (statementsStep_iff (blanks_append hlead hdark)).2
    (.statement (by simp) (by simp) helse hgoto hblanks)
  rw [hlast] at hstep
  have hblock := (congrFun (statements_eq_round size number) _).trans (bind_of_accepted hstep)
  rw [hdrop]
  refine ⟨_, arm_of_block (fun n t hn => ?_) hblock⟩
  cases hn.symm.trans hnumber

end

end Grammar
end LineBasic
