import LineBasic.Proofs.Grammar.BorderForms

/-!
# How statements begin

Of the forms that are tried one after the other, all but the assignment begin with a word of their
own (`Grammar.wordForms`), and no two of these words stand at one place
(`Grammar.pairwise_wordForms`, `Grammar.keyword_apart`). So a form that accepts is the one that
reads the statement (`Grammar.statementWith_of_word`), whatever comes before it in the list. An
assignment is read where no such word stands (`Grammar.statementWith_of_assign`); where one does, as
in `ON5 = 1`, it depends on whether the form of the word accepts.
-/

namespace LineBasic.Grammar

open LineBasic.Parser

variable {s t rest lead dark : List Char} {w w' found found' : String}

/-! ## Keywords exclude each other -/

/-- Nothing but letters, of ASCII and not `k`. -/
def isLettered (w : String) : Bool := isPlain w && w.toList.all fun c => (foldCase c).isAlpha

/-- At most one of the words stands at one place. -/
def areApart (w w' : String) : Bool :=
  if isLettered w && isLettered w' then w.toList.map foldCase != w'.toList.map foldCase
  else (isLettered w && !agrees w.toList w'.toList) || (isLettered w' && !agrees w'.toList w.toList)

theorem of_keyword (h : keyword w s = .accepted found rest) :
    ∃ lead dark, s = lead ++ dark ∧ IsBlank lead ∧ StartsDark dark ∧
      word w dark = .accepted found rest ∧ ∀ c ∈ rest.head?, ¬ c.isAlpha := by
  obtain ⟨lead, dark, rfl, hlead, hdark, -⟩ := exists_of_blanks s
  refine ⟨lead, dark, rfl, hlead, hdark, ?_⟩
  have hword : unlettered w dark = .accepted found rest :=
    of_wholly ((after_blanks hlead hdark).symm.trans h)
  obtain ⟨found', rest', hfound, -⟩ := exists_of_bind hword
  by_cases hletter : ∃ c ∈ rest'.head?, c.isAlpha
  · cases hword.symm.trans (unlettered_of_letter hfound hletter)
  · have hno : ∀ c ∈ rest'.head?, ¬ c.isAlpha := fun c hc halpha => hletter ⟨c, hc, halpha⟩
    obtain ⟨rfl, rfl⟩ := Outcome.accepted.inj (hword.symm.trans (unlettered_of_word hfound hno))
    exact ⟨hfound, hno⟩

theorem isAlpha_of_lettered (hw : isLettered w = true) {front : List Char}
    (h : front.map foldCase = w.toList.map foldCase) : ∀ c ∈ front, c.isAlpha := by
  intro c hc
  have hmem : foldCase c ∈ w.toList.map foldCase := h ▸ List.mem_map_of_mem hc
  obtain ⟨d, hd, hdc⟩ := List.mem_map.1 hmem
  obtain ⟨hplain, hletters⟩ := (Bool.and_eq_true ..).mp hw
  have hd' := List.all_eq_true.1 hplain d hd
  rw [Bool.and_eq_true, bne_iff_ne] at hd'
  exact isAlpha_of_foldCase (hdc ▸ hd'.2) (hdc ▸ List.all_eq_true.1 hletters d hd)

theorem agrees_of_append {as more bs : List Char} (h : agrees (as ++ more) bs = true) :
    agrees as bs = true := by
  induction as generalizing bs with
  | nil => rfl
  | cons a as ih =>
    cases bs with
    | nil => rfl
    | cons b bs =>
      rw [List.cons_append, agrees, Bool.and_eq_true] at h
      rw [agrees, Bool.and_eq_true]
      exact ⟨h.1, ih h.2⟩

theorem agrees_congr {as as' bs : List Char} (h : as.map foldCase = as'.map foldCase) :
    agrees as bs = agrees as' bs := by
  induction as generalizing as' bs with
  | nil =>
    rw [List.map_nil, eq_comm, List.map_eq_nil_iff] at h
    rw [h]
  | cons a as ih =>
    rcases as' with _ | ⟨a', as'⟩
    · cases h
    obtain ⟨ha, has⟩ := List.cons.inj h
    cases bs with
    | nil => rfl
    | cons b bs =>
      rw [agrees, agrees, ih has]
      exact congrArg (fun d => (d == foldCase b && agrees as' bs)) ha

theorem agrees_of_word (h : word w s = .accepted found rest) : agrees s w.toList = true := by
  rw [word] at h
  split at h
  next hagrees => exact hagrees
  next => cases h

theorem not_agrees_of_words (hw : isLettered w = true) (h : word w s = .accepted found rest)
    (h' : word w' s = .accepted found' t) : agrees w.toList w'.toList = true := by
  obtain ⟨front, rfl, -, hfront⟩ := begins_of_word ((Bool.and_eq_true ..).mp hw).1 h
  rw [← agrees_congr hfront]
  exact agrees_of_append (agrees_of_word h')

/-- Two words that are apart do not both stand here. -/
theorem keyword_apart (hapart : areApart w w' = true) (h : accepts (keyword w) s = true) :
    accepts (keyword w') s = false := by
  rw [← Bool.not_eq_true]
  intro h'
  obtain ⟨found, rest, h⟩ := exists_of_accepts h
  obtain ⟨found', t, h'⟩ := exists_of_accepts h'
  obtain ⟨lead, dark, rfl, hlead, hdark, hword, hrest⟩ := of_keyword h
  obtain ⟨lead', dark', heq, hlead', hdark', hword', ht⟩ := of_keyword h'
  have hblanks : blanks (lead ++ dark) = .accepted lead' dark' := heq ▸ blanks_append hlead' hdark'
  rw [blanks_append hlead hdark] at hblanks
  obtain ⟨rfl, rfl⟩ := Outcome.accepted.inj hblanks
  rw [areApart] at hapart
  split at hapart
  next hletters =>
    obtain ⟨hw, hw'⟩ := (Bool.and_eq_true ..).mp hletters
    obtain ⟨front, rfl, -, hfront⟩ := begins_of_word ((Bool.and_eq_true ..).mp hw).1 hword
    obtain ⟨front', heq, -, hfront'⟩ := begins_of_word ((Bool.and_eq_true ..).mp hw').1 hword'
    -- each is all of the letters at the front
    have hfirst := takeWhile_append (isAlpha_of_lettered hw hfront) hrest
    have hsecond := takeWhile_append (isAlpha_of_lettered hw' hfront') ht
    rw [heq] at hfirst
    obtain ⟨rfl, -⟩ := Outcome.accepted.inj (hfirst.symm.trans hsecond)
    rw [bne_iff_ne, ← hfront, hfront'] at hapart
    exact hapart rfl
  next =>
    rw [Bool.or_eq_true, Bool.and_eq_true, Bool.and_eq_true, Bool.not_eq_true', Bool.not_eq_true']
      at hapart
    rcases hapart with ⟨hw, hno⟩ | ⟨hw', hno⟩
    · rw [not_agrees_of_words hw hword hword'] at hno
      cases hno
    · rw [not_agrees_of_words hw' hword' hword] at hno
      cases hno

/-- A keyword that does not stand here is refused. -/
theorem keyword_of_not_accepts (h : accepts (keyword w) s = false) :
    ∃ place, keyword w s = .refused place := by
  obtain ⟨lead, dark, rfl, hlead, hdark, -⟩ := exists_of_blanks s
  have hkeyword : keyword w (lead ++ dark) = wholly (unlettered w) dark := after_blanks hlead hdark
  refine ⟨dark, hkeyword.trans ?_⟩
  cases hword : word w dark with
  | accepted found rest =>
    by_cases hc : ∃ c ∈ rest.head?, c.isAlpha
    · exact wholly_of_refused (unlettered_of_letter hword hc)
    · have haccepted : unlettered w dark = .accepted found rest :=
        unlettered_of_word hword fun c h halpha => hc ⟨c, h, halpha⟩
      rw [accepts_of_accepted (hkeyword.trans (wholly_of_accepted haccepted))] at h
      cases h
  | refused place => exact wholly_of_refused (bind_of_refused hword)
  | aborted place =>
    rw [word] at hword
    split at hword
    · split at hword <;> cases hword
    · cases hword

/-! ## Forms and their words -/

/-- Where none of the words stands, the form is refused. -/
def Led {α : Type} (words : List String) (form : Parser α) : Prop :=
  ∀ s, (∀ w ∈ words, accepts (keyword w) s = false) → ∃ place, form s = .refused place

theorem led_keyword {α : Type} (w : String) (f : String → Parser α) :
    Led [w] (keyword w >>= f) := by
  intro s h
  obtain ⟨place, hplace⟩ := keyword_of_not_accepts (h w (List.mem_singleton_self w))
  exact ⟨place, bind_of_refused hplace⟩

theorem led_orElse {α : Type} {words words' : List String} {p q : Parser α} (hp : Led words p)
    (hq : Led words' q) : Led (words ++ words') (p.orElse q) := by
  intro s h
  obtain ⟨place, hplace⟩ := hp s fun w hw => h w (List.mem_append_left _ hw)
  obtain ⟨place', hplace'⟩ := hq s fun w hw => h w (List.mem_append_right _ hw)
  exact ⟨place', (orElse_of_refused hplace).trans hplace'⟩

theorem led_firstOf {α ι : Type} (items : List ι) (word : ι → String) (f : ι → String → Parser α) :
    Led (items.map word) (firstOf (items.map fun i => keyword (word i) >>= f i)) := by
  induction items with
  | nil => exact fun s _ => ⟨s, rfl⟩
  | cons i more ih =>
    cases more with
    | nil => exact led_keyword (word i) (f i)
    | cons j more => exact led_orElse (led_keyword (word i) (f i)) ih

theorem Led.bind {α β : Type} {words : List String} {p : Parser α} (h : Led words p)
    (f : α → Parser β) : Led words (p >>= f) := by
  intro s hs
  obtain ⟨place, hplace⟩ := h s hs
  exact ⟨place, bind_of_refused hplace⟩

theorem Led.exists_word {α : Type} {words : List String} {form : Parser α} {a : α}
    (h : Led words form) (ha : form s = .accepted a rest) :
    ∃ w ∈ words, accepts (keyword w) s = true := by
  by_contra hno
  obtain ⟨place, hplace⟩ := h s fun w hw => by
    rw [← Bool.not_eq_true]
    exact fun hword => hno ⟨w, hw, hword⟩
  rw [hplace] at ha
  cases ha

/-- The commands that begin with a word of their own. -/
def wordForms : List (List String × Parser Command) :=
  [(["FOR"], forForm), (["NEXT"], nextForm), (["WHILE"], whileForm), (["GOTO"], gotoForm),
    (["GOSUB"], gosubForm), (["RETURN"], bareForm "RETURN" .returnSub), (["ON"], onForm),
    (["RESUME"], resumeForm), (["LINE"], lineInputForm), (["INPUT"], inputForm),
    (["READ"], readForm), (["DATA"], dataForm), (["RESTORE"], restoreForm), (["DIM"], dimForm),
    (["OPTION"], optionBaseForm), (typeWords.map Prod.fst, defTypeForm), (["DEF"], defFnForm),
    (["END"], bareForm "END" .endRun), (["STOP"], bareForm "STOP" .stopRun),
    (["WEND"], bareForm "WEND" .wend), (["TRON"], bareForm "TRON" .traceOn),
    (["TROFF"], bareForm "TROFF" .traceOff), (["SWAP"], swapForm), (["RANDOMIZE"], randomizeForm),
    (["COMMON"], commonForm), (["ERASE"], eraseForm)] ++
    promptWords.map (fun w => ([w], interactiveForm w)) ++ [(deviceWords, deviceForm)]

theorem commandForms_eq : commandForms = wordForms.map Prod.snd ++ [assignForm] := rfl

theorem led_of_mem_wordForms : ∀ e ∈ wordForms, Led e.1 e.2 := by
  have hdevice : Led deviceWords deviceForm := by
    rw [deviceForm_eq]
    refine Led.bind ?_ _
    have h := led_firstOf deviceWords id fun w _ => Pure.pure w
    rwa [List.map_id] at h
  have hdefType : Led (typeWords.map Prod.fst) defTypeForm :=
    (led_firstOf typeWords Prod.fst fun o _ => Pure.pure o.2).bind _
  unfold wordForms
  simp only [List.cons_append, List.nil_append, List.forall_mem_cons, List.forall_mem_append,
    List.forall_mem_map]
  repeat' apply And.intro
  any_goals exact List.forall_mem_nil _
  all_goals
    first
    | exact hdevice
    | exact hdefType
    | exact led_keyword _ _
    | exact fun w _ => led_keyword w _

/-- No word stands at the front of two forms. -/
theorem pairwise_wordForms : (wordForms.map Prod.fst).Pairwise fun words words' =>
    ∀ w ∈ words, ∀ w' ∈ words', areApart w w' = true ∧ areApart w' w = true := by
  decide +kernel

theorem carries_of_mem_wordForms {x y : List Char} {n : Nat} (hb : Border x y) :
    ∀ e ∈ wordForms, Carries x y n EndsStatement e.2 := by
  have interactive : ∀ w ∈ promptWords, Carries x y n EndsStatement (interactiveForm w) :=
    fun w hw => carries_interactiveForm hb ((by decide : ∀ w ∈ promptWords, isClear w = true) w hw)
  unfold wordForms
  simp only [List.cons_append, List.nil_append, List.forall_mem_cons, List.forall_mem_append,
    List.forall_mem_map]
  exact ⟨carries_forForm hb, carries_nextForm hb, carries_whileForm hb, carries_gotoForm hb,
    carries_gosubForm hb, carries_bareForm hb (by decide) _, carries_onForm hb,
    carries_resumeForm hb, carries_lineInputForm hb, carries_inputForm hb, carries_readForm hb,
    carries_dataForm hb, carries_restoreForm hb, carries_dimForm hb, carries_optionBaseForm hb,
    carries_defTypeForm hb, carries_defFnForm hb, carries_bareForm hb (by decide) _,
    carries_bareForm hb (by decide) _, carries_bareForm hb (by decide) _,
    carries_bareForm hb (by decide) _, carries_bareForm hb (by decide) _, carries_swapForm hb,
    carries_randomizeForm hb, carries_commonForm hb, carries_eraseForm hb, interactive,
    carries_deviceForm hb, List.forall_mem_nil _⟩

/-! ## The statement that is read -/

/-- The words that other statements than assignments begin with. -/
def leadingWords : List String := ["PRINT", "LPRINT", "IF"] ++ wordForms.flatMap Prod.fst

theorem mem_leadingWords {e : List String × Parser Command} (he : e ∈ wordForms)
    (hw : w ∈ e.1) : w ∈ leadingWords :=
  List.mem_append_right _ (List.mem_flatMap_of_mem he hw)

/-- The words of `PRINT` and `IF` stand at the front of no other form. -/
theorem apart_leadingWords : ∀ w ∈ wordForms.flatMap Prod.fst,
    areApart w "PRINT" = true ∧ areApart w "LPRINT" = true ∧ areApart w "IF" = true := by
  decide +kernel

theorem printForm_of_not_accepts (hmark : lead? s ≠ some '?')
    (hprint : accepts (keyword "PRINT") s = false)
    (hlprint : accepts (keyword "LPRINT") s = false) : ∃ place, printForm s = .refused place := by
  obtain ⟨_, hprint⟩ := keyword_of_not_accepts hprint
  obtain ⟨_, hlprint⟩ := keyword_of_not_accepts hlprint
  obtain ⟨place, hsymbol⟩ := symbol_of_lead? (w := "?") rfl hmark
  rw [printForm_eq]
  exact ⟨place, bind_of_refused
    ((orElse_of_refused hprint).trans ((orElse_of_refused hlprint).trans hsymbol))⟩

/-- A word begins with a letter. -/
theorem lead?_of_accepts_keyword (hw : w ∈ leadingWords) (h : accepts (keyword w) s = true) :
    lead? s ≠ some '?' := by
  obtain ⟨found, rest, h⟩ := exists_of_accepts h
  obtain ⟨lead, dark, rfl, hlead, hdark, hword, -⟩ := of_keyword h
  rw [lead?_append hlead hdark]
  intro hhead
  obtain ⟨more, rfl⟩ := List.head?_eq_some_iff.1 hhead
  have hagrees := agrees_of_word hword
  have hfirst : ∀ w ∈ leadingWords, w.toList.head?.all fun d => foldCase '?' != foldCase d := by
    decide +kernel
  have hne : ∀ w ∈ leadingWords, w.toList ≠ [] := by decide +kernel
  have hw' := hfirst w hw
  rcases hlist : w.toList with _ | ⟨d, others⟩
  · exact hne w hw hlist
  · rw [hlist, agrees, Bool.and_eq_true, beq_iff_eq] at hagrees
    rw [hlist, List.head?_cons, Option.all_some, bne_iff_ne] at hw'
    exact hw' hagrees.1

theorem firstOf_append_of_refused {α : Type} {parsers others : List (Parser α)}
    (h : ∀ p ∈ parsers, ∃ place, p s = .refused place) (hne : others ≠ []) :
    firstOf (parsers ++ others) s = firstOf others s := by
  induction parsers with
  | nil => rfl
  | cons p parsers ih =>
    obtain ⟨⟨place, hplace⟩, hparsers⟩ := List.forall_mem_cons.1 h
    rw [List.cons_append]
    exact (firstOf_cons_of_refused (by simp [hne]) hplace).trans (ih hparsers)

section

variable {inner : Parser (List Statement)} {size number : Nat} {c : Command} {st : Statement}

/-- What is no remark is read by the first form that accepts it. -/
theorem statementWith_of_dark (hdark : StartsDark s) {place : List Char}
    (hremark : remarkForm s = .refused place) :
    statementWith inner size number s =
      firstOf ([Statement.command ⟨number, size - Text.byteSize s + 1⟩ <$> printForm,
        conditionalForm inner ⟨number, size - Text.byteSize s + 1⟩] ++
          (wordForms.map Prod.snd ++ [assignForm]).map fun form =>
            Statement.command ⟨number, size - Text.byteSize s + 1⟩ <$> form) s := by
  have h : statementWith inner size number ([] ++ s) = _ := statementWith_append isBlank_nil hdark
  exact h.trans (firstOf_cons_of_refused (by simp) (map_of_refused hremark))

theorem statementWith_of_print (hdark : StartsDark s) {place : List Char}
    (hremark : remarkForm s = .refused place) (h : printForm s = .accepted c rest) :
    statementWith inner size number s =
      .accepted (.command ⟨number, size - Text.byteSize s + 1⟩ c) rest :=
  (statementWith_of_dark hdark hremark).trans (firstOf_cons_of_accepted (map_of_accepted h))

theorem statementWith_of_conditional (hdark : StartsDark s) {place : List Char}
    (hremark : remarkForm s = .refused place)
    (h : conditionalForm inner ⟨number, size - Text.byteSize s + 1⟩ s = .accepted st rest) :
    statementWith inner size number s = .accepted st rest := by
  obtain ⟨found, _, hif, -⟩ := exists_of_bind h
  have hword := accepts_of_accepted hif
  obtain ⟨_, hprint⟩ := printForm_of_not_accepts (lead?_of_accepts_keyword (by decide) hword)
    (keyword_apart (by decide) hword) (keyword_apart (by decide) hword)
  refine (statementWith_of_dark hdark hremark).trans ?_
  exact (firstOf_cons_of_refused (by simp) (map_of_refused hprint)).trans
    (firstOf_cons_of_accepted h)

theorem statementWith_of_word (hdark : StartsDark s) {place : List Char}
    (hremark : remarkForm s = .refused place) {e : List String × Parser Command}
    (he : e ∈ wordForms) (h : e.2 s = .accepted c rest) :
    statementWith inner size number s =
      .accepted (.command ⟨number, size - Text.byteSize s + 1⟩ c) rest := by
  obtain ⟨w, hw, hword⟩ := (led_of_mem_wordForms e he).exists_word h
  obtain ⟨hnotPrint, hnotLprint, hnotIf⟩ :=
    apart_leadingWords w (List.mem_flatMap_of_mem he hw)
  obtain ⟨_, hprint⟩ := printForm_of_not_accepts
    (lead?_of_accepts_keyword (mem_leadingWords he hw) hword) (keyword_apart hnotPrint hword)
    (keyword_apart hnotLprint hword)
  obtain ⟨_, hif⟩ := keyword_of_not_accepts (keyword_apart hnotIf hword)
  obtain ⟨before, after, hsplit⟩ := List.append_of_mem he
  have hbefore : ∀ e' ∈ before, ∃ place, e'.2 s = .refused place := by
    intro e' he'
    have hpairwise := pairwise_wordForms
    rw [hsplit, List.map_append, List.pairwise_append] at hpairwise
    have hapart := hpairwise.2.2 e'.1 (List.mem_map_of_mem he') e.1 (by simp)
    exact led_of_mem_wordForms e' (hsplit ▸ List.mem_append_left _ he') s fun w' hw' =>
      keyword_apart (hapart w' hw' w hw).2 hword
  refine (statementWith_of_dark hdark hremark).trans ?_
  rw [hsplit, List.map_append, List.map_append, List.map_append, List.append_assoc,
    ← List.append_assoc]
  refine (firstOf_append_of_refused ?_ (by simp)).trans
    (firstOf_cons_of_accepted (map_of_accepted h))
  intro p hp
  simp only [List.mem_append, List.mem_cons, List.not_mem_nil, or_false, List.mem_map] at hp
  rcases hp with (rfl | rfl) | ⟨_, ⟨e', he', rfl⟩, rfl⟩
  · exact ⟨_, map_of_refused hprint⟩
  · exact ⟨_, bind_of_refused hif⟩
  · obtain ⟨_, hplace⟩ := hbefore e' he'
    exact ⟨_, map_of_refused hplace⟩

theorem statementWith_of_assign (hdark : StartsDark s) {place : List Char}
    (hremark : remarkForm s = .refused place) (hmark : lead? s ≠ some '?')
    (hno : ∀ w ∈ leadingWords, accepts (keyword w) s = false)
    (h : assignForm s = .accepted c rest) :
    statementWith inner size number s =
      .accepted (.command ⟨number, size - Text.byteSize s + 1⟩ c) rest := by
  obtain ⟨_, hprint⟩ := printForm_of_not_accepts hmark (hno _ (by decide)) (hno _ (by decide))
  obtain ⟨_, hif⟩ := keyword_of_not_accepts (hno "IF" (by decide))
  refine (statementWith_of_dark hdark hremark).trans ?_
  rw [List.map_append, ← List.append_assoc]
  refine (firstOf_append_of_refused ?_ (by simp)).trans (map_of_accepted h)
  intro p hp
  simp only [List.mem_append, List.mem_cons, List.not_mem_nil, or_false, List.mem_map] at hp
  rcases hp with (rfl | rfl) | ⟨_, ⟨e, he, rfl⟩, rfl⟩
  · exact ⟨_, map_of_refused hprint⟩
  · exact ⟨_, bind_of_refused hif⟩
  · obtain ⟨_, hplace⟩ := led_of_mem_wordForms e he s fun w hw => hno w (mem_leadingWords he hw)
    exact ⟨_, map_of_refused hplace⟩

/-- The forms in which a statement is read. -/
inductive ReadAs (inner : Parser (List Statement)) (place : Place) (s : List Char) :
    Statement → List Char → Prop
  | remark {text : String} : ReadAs inner place s (.command place (.remark text)) []
  | print {c : Command} {rest : List Char} : printForm s = .accepted c rest →
    ReadAs inner place s (.command place c) rest
  | conditional {st : Statement} {rest : List Char} :
    conditionalForm inner place s = .accepted st rest → ReadAs inner place s st rest
  | word {c : Command} {rest : List Char} {e : List String × Parser Command} :
    e ∈ wordForms → e.2 s = .accepted c rest → ReadAs inner place s (.command place c) rest
  | assign {c : Command} {rest : List Char} : assignForm s = .accepted c rest →
    ReadAs inner place s (.command place c) rest

theorem readAs_of_statementWith (hdark : StartsDark s)
    (h : statementWith inner size number s = .accepted st rest) :
    ReadAs inner ⟨number, size - Text.byteSize s + 1⟩ s st rest ∧
      (rest ≠ [] → ∃ place, remarkForm s = .refused place) := by
  have hforms : statementWith inner size number ([] ++ s) = _ :=
    statementWith_append isBlank_nil hdark
  replace hforms := hforms.symm.trans h
  cases hremark : remarkForm s with
  | accepted c t =>
    obtain ⟨rfl, rfl⟩ := Outcome.accepted.inj
      ((firstOf_cons_of_accepted (map_of_accepted hremark)).symm.trans hforms)
    obtain ⟨_, u, -, hword⟩ := exists_of_bind hremark
    obtain ⟨_, _, -, heq⟩ := exists_of_bind hword
    obtain ⟨rfl, rfl⟩ := Outcome.accepted.inj heq
    exact ⟨.remark, fun hne => absurd rfl hne⟩
  | refused place =>
    refine ⟨?_, fun _ => ⟨place, rfl⟩⟩
    rw [statementWith_of_dark hdark hremark] at h
    obtain ⟨p, hp, h⟩ := exists_of_firstOf h
    simp only [List.cons_append, List.nil_append, List.mem_append, List.mem_cons,
      List.not_mem_nil, or_false, List.mem_map] at hp
    have command {form : Parser Command}
        (h : (Statement.command ⟨number, size - Text.byteSize s + 1⟩ <$> form) s =
          .accepted st rest) : ∃ c, form s = .accepted c rest ∧
            st = .command ⟨number, size - Text.byteSize s + 1⟩ c := by
      obtain ⟨c, t, hc, heq⟩ := exists_of_bind h
      obtain ⟨rfl, rfl⟩ := Outcome.accepted.inj heq
      exact ⟨c, hc, rfl⟩
    rcases hp with rfl | rfl | ⟨_, ⟨e, he, rfl⟩ | rfl, rfl⟩
    · obtain ⟨c, hc, rfl⟩ := command h
      exact .print hc
    · exact .conditional h
    · obtain ⟨c, hc, rfl⟩ := command h
      exact .word he hc
    · obtain ⟨c, hc, rfl⟩ := command h
      exact .assign hc
  | aborted place =>
    have haborted : (Statement.command ⟨number, size - Text.byteSize s + 1⟩ <$> remarkForm) s =
        .aborted place := bind_of_aborted hremark
    cases hforms.symm.trans (firstOf_cons_of_aborted haborted)

end

end LineBasic.Grammar
