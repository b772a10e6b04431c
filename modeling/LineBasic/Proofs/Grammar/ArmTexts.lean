import LineBasic.Proofs.Grammar.StatementLists

/-!
# Texts with a `GOTO` in an arm

A line with a line number for an arm is read like the line that has blanks and a `GOTO` before the
number (`Grammar.programLine_of_number`), in an arm of another `IF` too, and whatever `ELSE` belongs
to which of them. `Grammar.ReadsArm` says that reading the line comes to the arm.

The statements before the arm end before the border, which is the word that the arm begins behind,
and are read alike by induction on the length of what is read (`Grammar.keeps_list`). The statements
that the arm stands in are followed from the inside out, along the path on which reading comes to
the arm (`Grammar.joins_list`): what is read behind the arm is the same text.

Only assignments may come to nothing: `ON5 = NOT5` is one as long as no `GOTO` follows that makes an
`ON` of it. Those that begin with the word of another statement have to stay assignments
(`Grammar.KeepsAssignments`), which they do where no `=` goes with such a word
(`Grammar.keepsAssignments_of_tails`).
-/

namespace LineBasic.Grammar

open LineBasic.Parser

/-! ## Places of statements and arms -/

/-- An `IF` stands at the front of the first text, and one of its arms at that of the second. -/
inductive ArmAt (size number : Nat) (s t : List Char) : Prop
  | onTrue {place : Place} {condition : Expr Float} {onTrue : Arm} {onFalse : Option Arm}
      {word word' : String} {s₁ s₂ rest : List Char} :
    statement size number s = .accepted (.conditional place condition onTrue onFalse) rest →
    keyword "IF" s = .accepted word s₁ → expression s₁ = .accepted condition s₂ →
    keyword "THEN" s₂ = .accepted word' t → ArmAt size number s t
  | onFalse {place : Place} {condition : Expr Float} {onTrue onFalse : Arm}
      {word word' : String} {s₁ s₂ s₃ rest : List Char} :
    statement size number s = .accepted (.conditional place condition onTrue (some onFalse)) rest →
    keyword "IF" s = .accepted word s₁ → expression s₁ = .accepted condition s₂ →
    thenArm (statements size number) s₂ = .accepted onTrue s₃ →
    keyword "ELSE" s₃ = .accepted word' t → ArmAt size number s t

/-- Reading the statements of the first text comes to one at the front of the second: in a later
round, or in a block that is an arm. -/
inductive Comes (size number : Nat) : List Char → List Char → Prop
  | here (s : List Char) : Comes size number s s
  | skip {lead s t : List Char} : IsBlank lead → Comes size number s t →
    Comes size number (lead ++ s) t
  | later {items : List Statement} {s t u : List Char} :
    statementsStep (statements size number) size number s = .accepted (items, true) t →
    Comes size number t u → Comes size number s u
  | within {block : List Statement} {s t u rest : List Char} : ArmAt size number s t →
    arm (statements size number) t = .accepted (.block block) rest → Comes size number t u →
    Comes size number s u

section

variable {size number : Nat} {s t rest : List Char}

theorem ArmAt.suffix (h : ArmAt size number s t) : t <:+ s := by
  cases h with
  | onTrue _ hif hcondition hthen =>
    exact (Advances.suffix_of_accepted hthen).trans ((Advances.suffix_of_accepted hcondition).trans
      (Advances.suffix_of_accepted hif))
  | onFalse _ hif hcondition htrue helse =>
    exact (Advances.suffix_of_accepted helse).trans ((Advances.suffix_of_accepted htrue).trans
      ((Advances.suffix_of_accepted hcondition).trans (Advances.suffix_of_accepted hif)))

theorem Comes.suffix (h : Comes size number s t) : t <:+ s := by
  induction h with
  | here => exact List.suffix_refl _
  | skip _ _ ih => exact ih.trans (List.suffix_append _ _)
  | later hstep _ ih => exact ih.trans (Advances.suffix_of_accepted hstep)
  | within harm _ _ ih => exact ih.trans harm.suffix

theorem ArmAt.accepts_if (h : ArmAt size number s t) : accepts (keyword "IF") s = true := by
  cases h with
  | onTrue _ hif | onFalse _ hif => exact accepts_of_accepted hif

theorem ArmAt.exists_statement (h : ArmAt size number s t) :
    ∃ st rest, statement size number s = .accepted st rest := by
  cases h with
  | onTrue hst | onFalse hst => exact ⟨_, _, hst⟩

/-- The arm behind `THEN`, from what the parts of the `IF` leave. -/
theorem ArmAt.of_then (s₁ s₂ s₃ rest : List Char) {t : List Char}
    (hif : restOf? (keyword "IF") s = some s₁)
    (hcondition : restOf? expression s₁ = some s₂)
    (htrue : restOf? (thenArm (statements size number)) s₂ = some s₃)
    (hfalse : restOf? (optional (keyword "ELSE" >>= fun _ => arm (statements size number))) s₃ =
      some rest)
    (hthen : restOf? (keyword "THEN") s₂ = some t) : ArmAt size number s t := by
  obtain ⟨_, hif⟩ := exists_of_restOf? hif
  obtain ⟨_, hcondition⟩ := exists_of_restOf? hcondition
  obtain ⟨_, htrue⟩ := exists_of_restOf? htrue
  obtain ⟨_, hfalse⟩ := exists_of_restOf? hfalse
  obtain ⟨_, hthen⟩ := exists_of_restOf? hthen
  obtain ⟨_, hst⟩ := statement_of_parts hif hcondition htrue hfalse
  exact .onTrue hst hif hcondition hthen

end

/-! ## Before the border -/

/-- The statement has ended, and where `ELSE` follows, it leads to an arm. -/
def Settles (size number : Nat) (r : List Char) : Prop :=
  EndsStatement r ∧ (accepts (keyword "ELSE") r = true →
    accepts (keyword "ELSE" >>= fun _ => arm (statements size number)) r = true)

/-- The statement at the front is read as an assignment. -/
def ReadsAssignment (size number : Nat) (s : List Char) : Prop :=
  ∃ place command rest, assignForm s = .accepted command rest ∧
    statement size number s = .accepted (.command place command) rest

/-- The word of another statement than an assignment stands here. -/
def BeginsLikeAnother (s : List Char) : Prop := ∃ w ∈ leadingWords, accepts (keyword w) s = true

/-- The assignments that begin with the word of another statement stay assignments in front of the
other border. -/
def Kept (size size' number : Nat) (x y s : List Char) : Prop :=
  ∀ u, Comes size number s (u ++ x) → BeginsLikeAnother (u ++ x) →
    ReadsAssignment size number (u ++ x) → ReadsAssignment size' number (u ++ y)

theorem Kept.skip {size size' number : Nat} {x y s lead : List Char} (hlead : IsBlank lead)
    (h : Kept size size' number x y (lead ++ s)) : Kept size size' number x y s :=
  fun u hu => h u (.skip hlead hu)

theorem Kept.later {size size' number : Nat} {x y s t : List Char} {items : List Statement}
    (h : Kept size size' number x y s)
    (hstep : statementsStep (statements size number) size number s = .accepted (items, true) t) :
    Kept size size' number x y t := fun u hu => h u (.later hstep hu)

theorem Kept.within {size size' number : Nat} {x y s t rest : List Char} {block : List Statement}
    (h : Kept size size' number x y s) (harm : ArmAt size number s t)
    (hblock : arm (statements size number) t = .accepted (.block block) rest) :
    Kept size size' number x y t := fun u hu => h u (.within harm hblock hu)

/-- Statements up to a place before the border are read in the same way. -/
def KeepsList (size size' number : Nat) (x y v : List Char) : Prop :=
  ∀ ⦃v' xs⦄, Kept size size' number x y (v ++ x) → Settles size number (v' ++ x) →
    statements size number (v ++ x) = .accepted xs (v' ++ x) →
      ∃ ys, statements size' number (v ++ y) = .accepted ys (v' ++ y) ∧
        spelledOutList ys = spelledOutList xs

section

variable {size number : Nat} {lead : List Char}

theorem Settles.before_blanks {r : List Char} (h : Settles size number r) (hlead : IsBlank lead) :
    Settles size number (lead ++ r) := by
  have hsame := sameDark_append hlead r
  rw [Settles, EndsStatement, atStatementEnd_eq, trimStart_skip hlead, ← atStatementEnd_eq, accepts,
    accepts, hsame.keyword_eq, hsame.keyword_bind_eq]
  exact h

theorem settles_of_mark {r : List Char} (hlead : IsBlank lead)
    (h : r.head? = some ':' ∨ r.head? = some '\'') : Settles size number (lead ++ r) := by
  refine Settles.before_blanks ?_ hlead
  obtain ⟨c, more, rfl, hc⟩ : ∃ c more, r = c :: more ∧ (c = ':' ∨ c = '\'') := by
    rcases h with h | h
    · obtain ⟨more, rfl⟩ := List.head?_eq_some_iff.1 h
      exact ⟨_, more, rfl, .inl rfl⟩
    · obtain ⟨more, rfl⟩ := List.head?_eq_some_iff.1 h
      exact ⟨_, more, rfl, .inr rfl⟩
  have hno : accepts (keyword "ELSE") (c :: more) = false := by
    refine accepts_of_refused (keyword_of_head (by decide) rfl (startsDark_cons ?_) ?_)
    · rcases hc with rfl | rfl <;> decide
    · rintro _ ⟨⟩
      rcases hc with rfl | rfl <;> decide
  refine ⟨?_, fun helse => ?_⟩
  · rcases hc with rfl | rfl <;> rfl
  · rw [hno] at helse
    cases helse

end

section Before

variable {x y v v' : List Char} {size size' number n : Nat} {a : Arm} {st : Statement}
  {Q : List Char → Prop} {w : String}

/-- A word that may be the one at the border. -/
theorem carries_keyword (hb : Border x y) (hw : w.utf8ByteSize = w.toList.length)
    (h : w.toList.length ≤ 4) : Carries x y n Q (keyword w) := by
  refine (steady_blanks hb).before fun _ => Carries.wholly ?_
  obtain ⟨front, s, t, rfl, rfl, hfront, hs, ht⟩ := hb.exists_word
  intro v v' found hn hQ hx
  rcases hfront.unlettered_cases hw (.inr h) hs (fun c hc => not_isAlpha_of_isBlank (ht c hc)) v
    with ⟨f, r, -, -, -, hx', hy⟩ | ⟨_, _, hx', -⟩
  · obtain ⟨rfl, hrest⟩ := Outcome.accepted.inj (hx.symm.trans hx')
    rw [← List.append_assoc] at hrest
    obtain rfl := List.append_cancel_right hrest
    rw [List.append_assoc] at hy
    exact hy
  · cases hx.symm.trans hx'

/-- Whether a number is all of an arm shows before the border. -/
theorem no_line_before (hb : Border x y)
    (hno : ∀ n t, wholeNumber (v ++ x) = .accepted n t → ¬ EndsStatement t) :
    ∀ n t, wholeNumber (v ++ y) = .accepted n t → ¬ EndsStatement t := by
  intro n t hn
  rcases steady_wholeNumber hb v with ⟨m, u, -, hx, hy⟩ | ⟨_, _, -, hy⟩
  · obtain ⟨-, rfl⟩ := Outcome.accepted.inj (hn.symm.trans hy)
    rw [EndsStatement, ← hb.atStatementEnd_append]
    exact hno m _ hx
  · cases hn.symm.trans hy

theorem keeps_arm (hb : Border x y) (ih : KeepsList size size' number x y v)
    (hkept : ∀ block, a = .block block → Kept size size' number x y (v ++ x))
    (hsettles : Settles size number (v' ++ x))
    (h : arm (statements size number) (v ++ x) = .accepted a (v' ++ x)) :
    ∃ a', arm (statements size' number) (v ++ y) = .accepted a' (v' ++ y) ∧
      a'.spelledOut number = a.spelledOut number := by
  rcases of_arm h with ⟨n, hn, hend, rfl⟩ | ⟨hno, block, hblock, rfl⟩
  · obtain ⟨u, hu, -, hn'⟩ := (steady_wholeNumber hb).exists_suffix hn
    rw [← List.append_cancel_right hu] at hn'
    refine ⟨.line n, arm_of_line hn' ?_, rfl⟩
    rw [EndsStatement, ← hb.atStatementEnd_append]
    exact hend
  · obtain ⟨ys, hys, heq⟩ := ih (hkept block rfl) hsettles hblock
    refine ⟨.block ys, arm_of_block (no_line_before hb hno) hys, ?_⟩
    rw [Arm.spelledOut, Arm.spelledOut, heq]

theorem settles_of_else {s : List Char} {found : Arm} {rest : List Char}
    (h : (keyword "ELSE" >>= fun _ => arm (statements size number)) s = .accepted found rest) :
    Settles size number s := by
  obtain ⟨word, t, hword, -⟩ := exists_of_bind h
  exact ⟨EndsArm.atStatementEnd (.inr (accepts_of_accepted hword)), fun _ => accepts_of_accepted h⟩

theorem opensArguments_of_thenArm {inner : Parser (List Statement)} {s rest : List Char}
    (h : thenArm inner s = .accepted a rest) : OpensArguments s := by
  rcases of_thenArm h with ⟨_, _, hword, -⟩ | ⟨_, _, _, hword, -⟩
  · exact opensArguments_of_keyword (by decide) rfl (by decide) hword
  · exact opensArguments_of_keyword (by decide) rfl (by decide) hword

/-- The arm after a condition, if it ends before the border. -/
theorem keeps_thenArm (hb : Border x y)
    (ih : ∀ u, u <:+ v → KeepsList size size' number x y u)
    (hkept : ∀ block word t rest, keyword "THEN" (v ++ x) = .accepted word t →
      arm (statements size number) t = .accepted (.block block) rest →
        Kept size size' number x y t)
    (hsettles : Settles size number (v' ++ x))
    (h : thenArm (statements size number) (v ++ x) = .accepted a (v' ++ x)) :
    ∃ a', thenArm (statements size' number) (v ++ y) = .accepted a' (v' ++ y) ∧
      a'.spelledOut number = a.spelledOut number := by
  rcases of_thenArm h with ⟨word, t, hthen, harm⟩ | ⟨word, t, m, hgoto, hm, rfl⟩
  · obtain ⟨u, rfl, hu⟩ := exists_before hthen (Advances.suffix_of_accepted harm)
    have hword := carries_keyword hb (by decide) (by decide) (Q := fun _ => True)
      (Nat.lt_succ_self _) trivial hthen
    obtain ⟨a', ha', heq⟩ := keeps_arm hb (ih u hu)
      (fun block hblock => hkept block _ _ _ hthen (hblock ▸ harm)) hsettles harm
    exact ⟨a', thenArm_of_then hword ha', heq⟩
  · obtain ⟨u, rfl, -, hword⟩ := (steady_keyword hb (w := "GOTO") (by decide)).exists_suffix hgoto
    obtain ⟨u', hu', -, hm'⟩ := (steady_wholeNumber hb).exists_suffix hm
    rw [← List.append_cancel_right hu'] at hm'
    exact ⟨.line m, thenArm_of_goto hword hm', rfl⟩

/-- The other arm, or none: where `ELSE` stands behind the first arm, it leads to an arm. -/
theorem keeps_elseArm (hb : Border x y) {b : Option Arm}
    (ih : ∀ u, u <:+ v → KeepsList size size' number x y u)
    (hkept : ∀ a, b = some a → ∀ word t, keyword "ELSE" (v ++ x) = .accepted word t →
      ∀ block rest, arm (statements size number) t = .accepted (.block block) rest →
        Kept size size' number x y t)
    (hsettles : Settles size number (v' ++ x))
    (h : optional (keyword "ELSE" >>= fun _ => arm (statements size number)) (v ++ x) =
      .accepted b (v' ++ x)) :
    Settles size number (v ++ x) ∧ ∃ b',
      optional (keyword "ELSE" >>= fun _ => arm (statements size' number)) (v ++ y) =
        .accepted b' (v' ++ y) ∧
      b'.map (Arm.spelledOut number) = b.map (Arm.spelledOut number) := by
  rcases of_optional h with ⟨a, rfl, ha⟩ | ⟨rfl, hv, place, hno⟩
  · refine ⟨settles_of_else ha, ?_⟩
    obtain ⟨word, t, helse, harm⟩ := exists_of_bind ha
    obtain ⟨u, rfl, hu⟩ := exists_before helse (Advances.suffix_of_accepted harm)
    have hword := carries_keyword hb (by decide) (by decide) (Q := fun _ => True)
      (Nat.lt_succ_self _) trivial helse
    obtain ⟨a', ha', heq⟩ := keeps_arm hb (ih u hu)
      (fun block hblock => hkept a rfl _ _ helse _ _ (hblock ▸ harm)) hsettles harm
    exact ⟨some a', optional_of_accepted ((bind_of_accepted hword).trans ha'), congrArg some heq⟩
  · obtain rfl := List.append_cancel_right hv
    refine ⟨hsettles, none, ?_, rfl⟩
    have helse : accepts (keyword "ELSE") (v' ++ y) = false := by
      rw [← hb.accepts_keyword (by decide) (.inr (by decide)), ← Bool.not_eq_true]
      intro helse
      have haccepts := hsettles.2 helse
      rw [accepts_of_refused hno] at haccepts
      cases haccepts
    obtain ⟨place', hplace'⟩ := keyword_of_not_accepts helse
    exact optional_of_refused (bind_of_refused hplace')

theorem keeps_conditional (hb : Border x y) {column column' : Nat}
    (ih : ∀ u, u.length < v.length → KeepsList size size' number x y u)
    (hkept : Kept size size' number x y (v ++ x)) (hsettles : Settles size number (v' ++ x))
    (hst : statement size number (v ++ x) = .accepted st (v' ++ x))
    (h : conditionalForm (statements size number) ⟨number, column⟩ (v ++ x) =
      .accepted st (v' ++ x)) :
    ∃ st', conditionalForm (statements size' number) ⟨number, column'⟩ (v ++ y) =
      .accepted st' (v' ++ y) ∧ st'.spelledOut = st.spelledOut := by
  obtain ⟨word, s₁, condition, s₂, onTrue, s₃, onFalse, hif, hcondition, htrue, hfalse, rfl⟩ :=
    of_conditionalForm h
  have hs₃ : v' ++ x <:+ s₃ := Advances.suffix_of_accepted hfalse
  have hs₂ : v' ++ x <:+ s₂ := hs₃.trans (Advances.suffix_of_accepted htrue)
  have hs₁ : v' ++ x <:+ s₁ := hs₂.trans (Advances.suffix_of_accepted hcondition)
  have hshorter : s₁.length < (v ++ x).length :=
    (consumes_keyword (w := "IF") (by decide)).shorter hif
  obtain ⟨v₁, rfl, -, hif'⟩ := (steady_keyword hb (w := "IF") (by decide)).exists_suffix hif
  obtain ⟨v₂, rfl, hv₂⟩ := exists_before hcondition hs₂
  obtain ⟨v₃, rfl, hv₃⟩ := exists_before htrue hs₃
  rw [List.length_append, List.length_append] at hshorter
  have hlt : v₁.length < v.length := by omega
  have hshort {u : List Char} (hu : u <:+ v₂) : u.length < v.length :=
    Nat.lt_of_le_of_lt (hu.trans hv₂).length_le hlt
  have hcondition' : expression (v₁ ++ y) = .accepted condition (v₂ ++ y) :=
    carries_expression hb v.length hlt (opensArguments_of_thenArm htrue) hcondition
  obtain ⟨hsettled, onFalse', hfalse', hsame⟩ := keeps_elseArm hb
    (fun u hu => ih u (hshort (hu.trans hv₃))) (fun a hsome word t helse block rest harm =>
      hkept.within (.onFalse (hsome ▸ hst) hif hcondition htrue helse) harm) hsettles hfalse
  obtain ⟨onTrue', htrue', heq⟩ := keeps_thenArm hb (fun u hu => ih u (hshort hu))
    (fun block word t rest hthen harm =>
      hkept.within (.onTrue hst hif hcondition hthen) harm) hsettled htrue
  exact ⟨_, conditionalForm_of_parts hif' hcondition' htrue' hfalse',
    spelledOut_conditional heq hsame⟩

theorem refuses_remarkForm (hb : Border x y) : Refuses x y remarkForm := by
  refine (steady_blanks hb).refusesBefore fun _ => Refuses.bind ?_ fun _ => nofun
  intro v place h
  cases hrem : word "REM" (v ++ x) with
  | refused place' =>
    obtain ⟨_, hrem'⟩ := refuses_word hb (by decide) hrem
    have hmark : Steady x y (exactly ['\'']) := steady_exactly hb (by decide)
    obtain ⟨place'', hquote⟩ := hmark.refuses ((orElse_of_refused hrem).symm.trans h)
    exact ⟨place'', (orElse_of_refused hrem').trans hquote⟩
  | accepted found rest => cases (orElse_of_accepted hrem).symm.trans h
  | aborted place' =>
    rw [word] at hrem
    split at hrem
    · split at hrem <;> cases hrem
    · cases hrem

theorem lead?_of_assignForm {s rest : List Char} {c : Command}
    (h : assignForm s = .accepted c rest) : lead? s ≠ some '?' := by
  obtain ⟨found, t, hfound, hthen⟩ := exists_of_bind h
  rcases of_optional hfound with ⟨word, -, hword⟩ | ⟨-, rfl, -⟩
  · obtain ⟨d, hd, hfold⟩ := lead?_of_keyword (by decide) rfl hword
    rw [hd]
    rintro ⟨⟩
    exact absurd hfold (by decide)
  · obtain ⟨_, _, htarget, -⟩ := exists_of_bind hthen
    exact lead?_ne_of_isAlpha (lead?_of_target htarget) (by decide)

theorem keeps_statement (hb : Border x y) (hdark : StartsDark (v ++ x))
    (ih : ∀ u, u.length < v.length → KeepsList size size' number x y u)
    (hkept : Kept size size' number x y (v ++ x)) (hsettles : Settles size number (v' ++ x))
    (h : statement size number (v ++ x) = .accepted st (v' ++ x)) :
    ∃ st', statement size' number (v ++ y) = .accepted st' (v' ++ y) ∧
      st'.spelledOut = st.spelledOut := by
  have hst := h
  rw [statement_eq] at h
  obtain ⟨hread, hremark⟩ := readAs_of_statementWith hdark h
  have hne : v' ++ x ≠ [] := by
    obtain ⟨k, x', y', rfl, -⟩ := hb.exists_head
    simp
  have hdark' : StartsDark (v ++ y) := by
    rw [StartsDark, ← hb.head?_append]
    exact hdark
  obtain ⟨place, hremark⟩ := hremark hne
  obtain ⟨_, hremark'⟩ := refuses_remarkForm hb hremark
  have carried {form : Parser Command} {c : Command}
      (hform : Carries x y (v.length + 1) EndsStatement form)
      (hc : form (v ++ x) = .accepted c (v' ++ x)) : form (v ++ y) = .accepted c (v' ++ y) :=
    hform (Nat.lt_succ_self _) hsettles.1 hc
  rw [statement_eq size' number]
  generalize hrest : v' ++ x = rest at hread
  cases hread with
  | remark => exact absurd hrest hne
  | print hc =>
    exact ⟨_, statementWith_of_print hdark' hremark' (carried (carries_printForm hb) (hrest ▸ hc)),
      rfl⟩
  | conditional hc =>
    obtain ⟨st', hst', heq⟩ := keeps_conditional hb ih hkept hsettles hst (hrest ▸ hc)
    exact ⟨st', statementWith_of_conditional hdark' hremark' hst', heq⟩
  | word he hc =>
    exact ⟨_, statementWith_of_word hdark' hremark' he
      (carried (carries_of_mem_wordForms hb _ he) (hrest ▸ hc)), rfl⟩
  | assign hc =>
    have hc' := carried (carries_assignForm hb) (hrest ▸ hc)
    -- in front of the other border the form of such a word might accept
    by_cases hword : BeginsLikeAnother (v ++ x)
    · subst hrest
      obtain ⟨place', c', rest', hassign, hread⟩ :=
        hkept v (.here _) hword ⟨_, _, _, hc, hst⟩
      obtain ⟨rfl, rfl⟩ := Outcome.accepted.inj (hassign.symm.trans hc')
      have hline := line_of_statement hdark' hread
      rw [statement_eq] at hread
      refine ⟨_, hread, ?_⟩
      obtain ⟨line, column⟩ := place'
      obtain rfl : line = number := hline
      rfl
    · refine ⟨_, statementWith_of_assign hdark' hremark' (lead?_of_assignForm hc')
        (fun w hw => ?_) hc', rfl⟩
      have hclear : ∀ w ∈ leadingWords, isClear w = true := by decide +kernel
      rw [← (steady_keyword hb (hclear w hw)).accepts_eq v, ← Bool.not_eq_true]
      exact fun h => hword ⟨w, hw, h⟩

theorem keeps_round (hb : Border x y) {items : List Statement} {goesOn : Bool}
    (ih : ∀ u, u.length < v.length → KeepsList size size' number x y u)
    (hkept : Kept size size' number x y (v ++ x))
    (h : statementsStep (statements size number) size number (v ++ x) =
      .accepted (items, goesOn) (v' ++ x))
    (hsettles : goesOn = false → Settles size number (v' ++ x)) :
    ∃ items', statementsStep (statements size' number) size' number (v ++ y) =
      .accepted (items', goesOn) (v' ++ y) ∧ spelledOutList items' = spelledOutList items := by
  obtain ⟨lead, u, hu, hx, hy⟩ := (steady_blanks hb v).resolve_right nofun
  rw [statementsStep_iff hx] at h
  obtain ⟨hv, hlead, hdark⟩ := of_takeWhile hx
  rw [← List.append_assoc] at hv
  obtain rfl := List.append_cancel_right hv
  generalize hrest : v' ++ x = rest at h hsettles
  cases h with
  | stop hend =>
    obtain rfl := List.append_cancel_right hrest
    have helse : accepts (keyword "ELSE") (v' ++ y) = true := by
      rw [← hb.accepts_keyword (by decide) (.inr (by decide))]
      refine hend.resolve_left fun hnil => ?_
      obtain ⟨k, x', y', rfl, -⟩ := hb.exists_head
      simp at hnil
    exact ⟨[], (statementsStep_iff hy).2 (.stop (.inr helse)), rfl⟩
  | colon hcolon =>
    rw [← hrest] at hcolon
    rcases u with _ | ⟨c, u⟩
    · obtain ⟨k, x', y', rfl, rfl, hk⟩ := hb.exists_head
      rw [(List.cons.inj hcolon).1] at hk
      exact absurd hk (by decide)
    · obtain ⟨rfl, hv'⟩ := List.cons.inj hcolon
      obtain rfl : u = v' := List.append_cancel_right hv'
      exact ⟨[], (statementsStep_iff hy).2 (.colon rfl), rfl⟩
  | @statement st lead' t _ hnil hcolon helse hst hblanks =>
    subst hrest
    obtain ⟨v₂, rfl, hv₂⟩ := exists_before hst (Advances.suffix_of_accepted hblanks)
    obtain ⟨hv₂', hlead', -⟩ := of_takeWhile hblanks
    obtain ⟨v₃, hv₃, -, hblanks'⟩ := (steady_blanks hb).exists_suffix hblanks
    obtain rfl := List.append_cancel_right hv₃
    have hsettled : Settles size number (v₂ ++ x) := by
      rw [hv₂']
      cases hgoes : ((v' ++ x).head? == some ':' || (v' ++ x).head? == some '\'') with
      | true =>
        rw [Bool.or_eq_true, beq_iff_eq, beq_iff_eq] at hgoes
        exact settles_of_mark hlead' hgoes
      | false => exact (hsettles hgoes).before_blanks hlead'
    rw [← statement_eq] at hst
    obtain ⟨st', hst', heq⟩ := keeps_statement hb hdark
      (fun u' hu' => ih u' (Nat.lt_of_lt_of_le hu' hu.length_le))
      (Kept.skip hlead (List.append_assoc .. ▸ hkept)) hsettled hst
    rw [statement_eq] at hst'
    refine ⟨[st'], (statementsStep_iff hy).2 ?_, by rw [spelledOutList, spelledOutList, heq]; rfl⟩
    rw [hb.head?_append v']
    refine .statement ?_ ?_ ?_ hst' hblanks'
    · obtain ⟨k, x', y', rfl, rfl, -⟩ := hb.exists_head
      simp
    · rwa [← hb.head?_append]
    · rwa [← hb.accepts_keyword (by decide) (.inr (by decide))]

/-- By induction on the length: the arms and the later rounds read less. -/
theorem keeps_list (hb : Border x y) (v : List Char) : KeepsList size size' number x y v := by
  intro v' xs hkept hsettles h
  rw [statements_eq_round] at h ⊢
  obtain ⟨⟨items, goesOn⟩, t, hstep, h⟩ := exists_of_bind h
  have ih (u : List Char) (hu : u.length < v.length) : KeepsList size size' number x y u :=
    keeps_list hb u
  cases goesOn with
  | false =>
    obtain ⟨rfl, rfl⟩ := Outcome.accepted.inj h
    obtain ⟨ys, hys, heq⟩ := keeps_round hb ih hkept hstep fun _ => hsettles
    exact ⟨ys, (bind_of_accepted hys).trans rfl, heq⟩
  | true =>
    obtain ⟨others, t', hothers, heq⟩ := exists_of_bind h
    obtain ⟨rfl, rfl⟩ := Outcome.accepted.inj heq
    obtain ⟨u, rfl, -⟩ := exists_before hstep (Advances.suffix_of_accepted hothers)
    have hlt := (LoopStep.statement size number inferInstance).progresses hstep
    rw [List.length_append, List.length_append] at hlt
    obtain ⟨ys, hys, hitems⟩ := keeps_round hb ih hkept hstep nofun
    obtain ⟨zs, hzs, hmore⟩ := ih u (by omega) (hkept.later hstep) hsettles hothers
    refine ⟨ys ++ zs, (bind_of_accepted hys).trans ((bind_of_accepted hzs).trans rfl), ?_⟩
    rw [spelledOutList_append, spelledOutList_append, hitems, hmore]
termination_by v.length

end Before

/-! ## Statements around the arm -/

section Around

variable {x y v s t t' rest : List Char} {size size' number n : Nat} {a : Arm} {st : Statement}
  {inner : Parser (List Statement)}

/-- The arm at `t` in front of the one border goes on like that at `t'` in front of the other. -/
structure ArmsJoin (size size' number : Nat) (x y t t' : List Char) : Prop where
  word : ∀ v w word s, (w = "THEN" ∨ w = "ELSE") → s <:+ v ++ x → keyword w s = .accepted word t →
    ∃ u word', s = u ++ x ∧ keyword w (u ++ y) = .accepted word' t'
  arm : ∀ a rest, Grammar.arm (statements size number) t = .accepted a rest →
    ∃ a' rest', Grammar.arm (statements size' number) t' = .accepted a' rest' ∧
      a'.spelledOut number = a.spelledOut number ∧ SameDark rest rest'

/-- The arm behind `THEN`. -/
theorem joins_thenArm {word : String} (hjoin : ArmsJoin size size' number x y t t')
    (hs : s <:+ v ++ x) (hthen : keyword "THEN" s = .accepted word t)
    (h : thenArm (statements size number) s = .accepted a rest) :
    ∃ u a' rest', s = u ++ x ∧
      thenArm (statements size' number) (u ++ y) = .accepted a' rest' ∧
      a'.spelledOut number = a.spelledOut number ∧ SameDark rest rest' := by
  obtain ⟨u, word', rfl, hthen'⟩ := hjoin.word v "THEN" word s (.inl rfl) hs hthen
  rcases of_thenArm h with ⟨_, _, hword, harm⟩ | ⟨_, _, _, hgoto, -, -⟩
  · obtain ⟨-, rfl⟩ := Outcome.accepted.inj (hthen.symm.trans hword)
    obtain ⟨a', rest', ha', heq, hsame⟩ := hjoin.arm _ _ harm
    exact ⟨u, a', rest', rfl, thenArm_of_then hthen' ha', heq, hsame⟩
  · have hno : accepts (keyword "GOTO") (u ++ x) = false :=
      keyword_apart (by decide) (accepts_of_accepted hthen)
    rw [accepts_of_accepted hgoto] at hno
    cases hno

/-- The arm behind `ELSE`. -/
theorem joins_elseArm {word : String} (hjoin : ArmsJoin size size' number x y t t')
    (hs : s <:+ v ++ x) (helse : keyword "ELSE" s = .accepted word t)
    (h : (keyword "ELSE" >>= fun _ => arm (statements size number)) s = .accepted a rest) :
    ∃ u a' rest', s = u ++ x ∧
      (keyword "ELSE" >>= fun _ => arm (statements size' number)) (u ++ y) = .accepted a' rest' ∧
      a'.spelledOut number = a.spelledOut number ∧ SameDark rest rest' := by
  obtain ⟨u, word', rfl, helse'⟩ := hjoin.word v "ELSE" word s (.inr rfl) hs helse
  have harm := (bind_of_accepted helse).symm.trans h
  obtain ⟨a', rest', ha', heq, hsame⟩ := hjoin.arm _ _ harm
  exact ⟨u, a', rest', rfl, (bind_of_accepted helse').trans ha', heq, hsame⟩

/-- An `IF` with the arm. -/
theorem joins_conditional (hb : Border x y) (hjoin : ArmsJoin size size' number x y t t')
    (hkept : Kept size size' number x y (v ++ x)) (harm : ArmAt size number (v ++ x) t)
    (h : statement size number (v ++ x) = .accepted st rest) :
    ∃ st' rest', statement size' number (v ++ y) = .accepted st' rest' ∧
      st'.spelledOut = st.spelledOut ∧ SameDark rest rest' := by
  have hsteady := steady_keyword hb (w := "IF") (by decide)
  cases harm with
  | @onTrue place condition onTrue onFalse word word' s₁ s₂ _ hst hif hcondition hthen =>
    obtain ⟨rfl, rfl⟩ := Outcome.accepted.inj (h.symm.trans hst)
    obtain ⟨_, _, _, s₃, column, rfl, hif', hcondition', htrue, hfalse⟩ :=
      of_statement_conditional hst
    obtain ⟨rfl, rfl⟩ := Outcome.accepted.inj (hif.symm.trans hif')
    obtain ⟨-, rfl⟩ := Outcome.accepted.inj (hcondition.symm.trans hcondition')
    have hsuffix := (Advances.suffix_of_accepted hcondition).trans (Advances.suffix_of_accepted hif)
    obtain ⟨u, a', rest', rfl, ha', heq, hsame⟩ := joins_thenArm hjoin hsuffix hthen htrue
    obtain ⟨v₁, rfl, -, hif''⟩ := hsteady.exists_suffix hif
    have hcondition'' : expression (v₁ ++ y) = .accepted condition (u ++ y) :=
      carries_expression hb _ (Nat.lt_succ_self _) (opensArguments_of_thenArm htrue) hcondition
    obtain ⟨b', hb', hsecond⟩ :=
      (alike_elseArm number (alike_statements size size' number)).exists_accepted hfalse
    obtain ⟨rest'', hb'', hrest⟩ := hsame.optional (hsame.keyword_bind_eq "ELSE" _) hb'
    obtain ⟨column', hst'⟩ := statement_of_parts hif'' hcondition'' ha' hb''
    exact ⟨_, rest'', hst', spelledOut_conditional heq hsecond, hrest⟩
  | @onFalse place condition onTrue onFalse word word' s₁ s₂ s₃ _ hst hif hcondition htrue helse =>
    obtain ⟨rfl, rfl⟩ := Outcome.accepted.inj (h.symm.trans hst)
    obtain ⟨_, _, _, _, column, rfl, hif', hcondition', htrue', hfalse⟩ :=
      of_statement_conditional hst
    obtain ⟨rfl, rfl⟩ := Outcome.accepted.inj (hif.symm.trans hif')
    obtain ⟨-, rfl⟩ := Outcome.accepted.inj (hcondition.symm.trans hcondition')
    obtain ⟨-, rfl⟩ := Outcome.accepted.inj (htrue.symm.trans htrue')
    have hsuffix := (Advances.suffix_of_accepted htrue).trans
      ((Advances.suffix_of_accepted hcondition).trans (Advances.suffix_of_accepted hif))
    rcases of_optional hfalse with ⟨b, hsome, hb'⟩ | ⟨hnone, -⟩
    · obtain rfl := Option.some.inj hsome
      obtain ⟨u, b', rest', rfl, hb'', hsecond, hsame⟩ := joins_elseArm hjoin hsuffix helse hb'
      obtain ⟨v₁, rfl, -, hif''⟩ := hsteady.exists_suffix hif
      obtain ⟨v₂, rfl, -⟩ := exists_before hcondition (Advances.suffix_of_accepted htrue)
      have hcondition'' : expression (v₁ ++ y) = .accepted condition (v₂ ++ y) :=
        carries_expression hb _ (Nat.lt_succ_self _) (opensArguments_of_thenArm htrue) hcondition
      obtain ⟨a', ha', heq⟩ := keeps_thenArm hb (fun u' _ => keeps_list hb u')
        (fun block word t rest hthen harm => hkept.within (.onTrue hst hif hcondition hthen) harm)
        (settles_of_else hb') htrue
      obtain ⟨column', hst'⟩ :=
        statement_of_parts hif'' hcondition'' ha' (optional_of_accepted hb'')
      exact ⟨_, rest', hst', spelledOut_conditional heq (congrArg some hsecond), hsame⟩
    · cases hnone

/-- A list that begins with an `IF`. -/
theorem joins_statements {s s' t t' : List Char} {st st' : Statement} {xs : List Statement}
    (hif : accepts (keyword "IF") s = true) (hif' : accepts (keyword "IF") s' = true)
    (hst : statement size number s = .accepted st t)
    (hst' : statement size' number s' = .accepted st' t')
    (heq : st'.spelledOut = st.spelledOut) (hsame : SameDark t t')
    (h : statements size number s = .accepted xs rest) :
    ∃ ys rest', statements size' number s' = .accepted ys rest' ∧
      spelledOutList ys = spelledOutList xs ∧ SameDark rest rest' := by
  obtain ⟨lead, lead', dark, hdark, hdark'⟩ := hsame.exists_blanks
  have hstep := statementsStep_of_if hif hst hdark
  have hstep' := statementsStep_of_if hif' hst' hdark'
  have hlist : spelledOutList [st'] = spelledOutList [st] := by
    rw [spelledOutList, spelledOutList, heq]
    rfl
  rw [statements_eq_round] at h
  rw [statements_eq_round size' number]
  have hrest := (bind_of_accepted hstep).symm.trans h
  cases hgoes : (dark.head? == some ':' || dark.head? == some '\'') with
  | false =>
    rw [hgoes] at hrest hstep'
    obtain ⟨rfl, rfl⟩ := Outcome.accepted.inj hrest
    exact ⟨[st'], dark, (bind_of_accepted hstep').trans rfl, hlist, rfl⟩
  | true =>
    rw [hgoes] at hrest hstep'
    obtain ⟨more, t'', hmore, hxs⟩ := exists_of_bind hrest
    obtain ⟨rfl, rfl⟩ := Outcome.accepted.inj hxs
    obtain ⟨more', hmore', hsecond⟩ := (alike_statements size size' number).exists_accepted hmore
    refine ⟨[st'] ++ more', t'', (bind_of_accepted hstep').trans
      ((bind_of_accepted hmore').trans rfl), ?_, rfl⟩
    rw [spelledOutList_append, spelledOutList_append, hlist, hsecond]

/-- The arm of an `IF` at the front of a list. -/
theorem joins_front (hb : Border x y) (hjoin : ArmsJoin size size' number x y t t')
    (hkept : Kept size size' number x y (v ++ x)) (harm : ArmAt size number (v ++ x) t)
    {xs : List Statement} (h : statements size number (v ++ x) = .accepted xs rest) :
    ∃ ys rest', statements size' number (v ++ y) = .accepted ys rest' ∧
      spelledOutList ys = spelledOutList xs ∧ SameDark rest rest' := by
  obtain ⟨st, after, hst⟩ := harm.exists_statement
  obtain ⟨st', after', hst', heq, hsame⟩ := joins_conditional hb hjoin hkept harm hst
  have hif' : accepts (keyword "IF") (v ++ y) = true :=
    ((steady_keyword hb (by decide)).accepts_eq v).symm.trans harm.accepts_if
  exact joins_statements harm.accepts_if hif' hst hst' heq hsame h

/-- Statements in an arm before the border go on alike, and so does the arm. -/
theorem armsJoin_of_block (hb : Border x y) {block block' : List Statement}
    {after after' : List Char}
    (hblock : arm (statements size number) (v ++ x) = .accepted (.block block) after)
    (hblock' : statements size' number (v ++ y) = .accepted block' after')
    (heq : spelledOutList block' = spelledOutList block) (hsame : SameDark after after') :
    ArmsJoin size size' number x y (v ++ x) (v ++ y) where
  word w₀ w word s hw hs hword := by
    obtain ⟨u, hu⟩ := (List.suffix_append v x).trans (Advances.suffix_of_accepted hword)
    subst hu
    refine ⟨u, word, rfl, ?_⟩
    rcases hw with rfl | rfl
    · exact carries_keyword hb (by decide) (by decide) (Q := fun _ => True) (Nat.lt_succ_self _)
        trivial hword
    · exact carries_keyword hb (by decide) (by decide) (Q := fun _ => True) (Nat.lt_succ_self _)
        trivial hword
  arm a rest ha := by
    obtain ⟨rfl, rfl⟩ := Outcome.accepted.inj (hblock.symm.trans ha)
    rcases of_arm hblock with ⟨_, -, -, hline⟩ | ⟨hno, -⟩
    · cases hline
    · refine ⟨.block block', after', arm_of_block (no_line_before hb hno) hblock', ?_, hsame⟩
      rw [Arm.spelledOut, Arm.spelledOut, heq]

/-- A list of statements with the arm somewhere in it, by induction on the way to it: rounds before
it are read alike, and an arm around it goes on like it. -/
theorem joins_list (hb : Border x y) {u : List Char} (hjoin : ArmsJoin size size' number x y t t')
    (hx : x <:+ u) (hcomes : Comes size number s u) (harm : ArmAt size number u t)
    (hs : s = v ++ x) (hkept : Kept size size' number x y s) {xs : List Statement}
    (h : statements size number s = .accepted xs rest) :
    ∃ ys rest', statements size' number (v ++ y) = .accepted ys rest' ∧
      spelledOutList ys = spelledOutList xs ∧ SameDark rest rest' := by
  induction hcomes generalizing v xs rest with
  | here s =>
    subst hs
    exact joins_front hb hjoin hkept harm h
  | @skip lead r _ hlead hcomes ih =>
    obtain ⟨v₁, rfl⟩ := hx.trans hcomes.suffix
    rw [← List.append_assoc] at hs
    obtain rfl := List.append_cancel_right hs
    rw [(sameDark_append hlead (v₁ ++ x)).statements_eq] at h
    rw [List.append_assoc, (sameDark_append hlead (v₁ ++ y)).statements_eq]
    exact ih hx harm rfl (hkept.skip hlead) h
  | @later items r r' _ hstep hcomes ih =>
    obtain ⟨v₁, rfl⟩ := hx.trans hcomes.suffix
    subst hs
    rw [statements_eq_round] at h
    obtain ⟨others, t₁, hothers, hxs⟩ := exists_of_bind ((bind_of_accepted hstep).symm.trans h)
    obtain ⟨rfl, rfl⟩ := Outcome.accepted.inj hxs
    obtain ⟨ys, hys, hitems⟩ := keeps_round hb (fun u' _ => keeps_list hb u') hkept hstep nofun
    obtain ⟨zs, rest', hzs, hmore, hsame⟩ := ih hx harm rfl (hkept.later hstep) hothers
    rw [statements_eq_round size' number]
    refine ⟨ys ++ zs, rest', (bind_of_accepted hys).trans ((bind_of_accepted hzs).trans rfl), ?_,
      hsame⟩
    rw [spelledOutList_append, spelledOutList_append, hitems, hmore]
  | @within block r r' _ after harm' hblock hcomes ih =>
    obtain ⟨v₁, rfl⟩ := hx.trans hcomes.suffix
    subst hs
    rcases of_arm hblock with ⟨_, -, -, hline⟩ | ⟨-, block', hread, heq⟩
    · cases hline
    · obtain rfl := Arm.block.inj heq
      obtain ⟨ys, after', hys, hsecond, hsame⟩ :=
        ih hx harm rfl (hkept.within harm' hblock) hread
      exact joins_front hb (armsJoin_of_block hb hblock hys hsecond hsame) hkept harm' h

end Around

/-! ## A number or a `GOTO` -/

section Number

variable {front s s' lead rest before : List Char} {size size' number n : Nat}

/-- The keyword of an arm begins at the border. -/
theorem exists_front {w word : String} {t : List Char} (hw : w = "THEN" ∨ w = "ELSE")
    (h : keyword w t = .accepted word s) :
    ∃ lead front, t = lead ++ (front ++ s) ∧ IsBlank lead ∧ StartsDark (front ++ s) ∧
      front.map foldCase = w.toList.map foldCase ∧ IsArmWord front := by
  obtain ⟨lead, dark, rfl, hlead, hdark, hword, -⟩ := of_keyword h
  have hplain : isPlain w = true := by rcases hw with rfl | rfl <;> decide
  obtain ⟨front, rfl, -, hfront⟩ := begins_of_word hplain hword
  refine ⟨lead, front, rfl, hlead, hdark, hfront, ?_⟩
  rcases hw with rfl | rfl
  · exact .inl hfront
  · exact .inr hfront

theorem ArmAt.exists_front {t : List Char} (h : ArmAt size number t s) :
    ∃ front, front ++ s <:+ t ∧ IsArmWord front := by
  have behind {w word : String} {t₁ : List Char} (hw : w = "THEN" ∨ w = "ELSE") (ht : t₁ <:+ t)
      (hword : keyword w t₁ = .accepted word s) : ∃ front, front ++ s <:+ t ∧ IsArmWord front := by
    obtain ⟨lead, front, rfl, -, -, -, hfront⟩ := Grammar.exists_front hw hword
    exact ⟨front, (List.suffix_append lead _).trans ht, hfront⟩
  cases h with
  | onTrue _ hif hcondition hthen =>
    exact behind (.inl rfl) ((Advances.suffix_of_accepted hcondition).trans
      (Advances.suffix_of_accepted hif)) hthen
  | onFalse _ hif hcondition htrue helse =>
    exact behind (.inr rfl) ((Advances.suffix_of_accepted htrue).trans
      ((Advances.suffix_of_accepted hcondition).trans (Advances.suffix_of_accepted hif))) helse

theorem head?_of_blanks {t : List Char} (hlead : IsBlank lead) (hne : lead ≠ []) :
    ∀ c ∈ (lead ++ t).head?, Text.isBlank c := by
  obtain ⟨d, more, rfl⟩ := List.exists_cons_of_ne_nil hne
  rintro _ ⟨⟩
  exact hlead d List.mem_cons_self

theorem border_of_number (hfront : IsArmWord front) (hn : wholeNumber s = .accepted n rest)
    (hlead : IsBlank lead) (hne : lead ≠ []) :
    Border (front ++ s) (front ++ (lead ++ ("GOTO".toList ++ s'))) where
  exists_word := ⟨front, s, _, rfl, rfl, hfront, not_isAlpha_of_wholeNumber hn,
    head?_of_blanks hlead hne⟩

theorem armsJoin_of_number (hfront : IsArmWord front) (hn : wholeNumber s = .accepted n rest)
    (hn' : wholeNumber s' = .accepted n rest) (hend : EndsArm rest) (hlead : IsBlank lead)
    (hne : lead ≠ []) :
    ArmsJoin size size' number (front ++ s) (front ++ (lead ++ ("GOTO".toList ++ s'))) s
      (lead ++ ("GOTO".toList ++ s')) where
  word v w word t hw ht hword := by
    obtain ⟨lead', front', rfl, hlead', hdark, hfold, hfront'⟩ := exists_front hw hword
    rw [← List.append_assoc, ← List.append_assoc] at ht
    -- the four letters before the number are those at the border
    obtain ⟨z, hz⟩ := List.suffix_append_self_iff.1 ht
    rw [← List.append_assoc] at hz
    obtain ⟨-, rfl⟩ := List.append_inj' hz (hfront'.length_eq.trans hfront.length_eq.symm)
    have hplain : isPlain w = true := by rcases hw with rfl | rfl <;> decide
    obtain ⟨k, more, rfl, hk, -⟩ := hfront.exists_cons
    refine ⟨lead', _, rfl, keyword_append hplain hlead' hfold
      (startsDark_cons fun hblank => not_isAlpha_of_isBlank hblank hk) fun c hc => ?_⟩
    exact not_isAlpha_of_isBlank (head?_of_blanks hlead hne c hc)
  arm a t ha := by
    obtain ⟨rfl, rfl⟩ := Outcome.accepted.inj ((arm_of_number _ hn hend).symm.trans ha)
    obtain ⟨column, hgoto⟩ := arm_of_goto size' number hlead hn' hend
    obtain ⟨lead', dark, rfl, hlead', hdark, hblanks⟩ := exists_of_blanks rest
    have hdrop : (lead' ++ dark).dropWhile Text.isBlank = dark := (Outcome.accepted.inj hblanks).2
    rw [hdrop] at hgoto
    exact ⟨_, dark, hgoto, rfl, sameDark_append hlead' dark⟩

/-- Reading the line comes to an arm at the front of the second text. -/
def ReadsArm (text s : List Char) : Prop :=
  ∃ number after t, wholeNumber text = .accepted number after ∧
    Comes (Text.byteSize text) number after t ∧ ArmAt (Text.byteSize text) number t s

/-- The assignments of the line `before ++ s` that begin with the word of another statement stay
assignments in the line `before ++ s'`. -/
def KeepsAssignments (before s s' : List Char) : Prop :=
  ∀ number after, wholeNumber (before ++ s) = .accepted number after →
    ∀ t, Comes (Text.byteSize (before ++ s)) number after (t ++ s) → BeginsLikeAnother (t ++ s) →
      ReadsAssignment (Text.byteSize (before ++ s)) number (t ++ s) →
        ReadsAssignment (Text.byteSize (before ++ s')) number (t ++ s')

/-- Where no assignment begins with the word of another statement, all of them stay. -/
theorem keepsAssignments_of_tails (h : ∀ r ∈ (before ++ s).tails,
    (∃ w ∈ leadingWords, accepts (keyword w) r = true) → accepts assignForm r = false) :
    KeepsAssignments before s s' := by
  rintro number after hnumber t hcomes hword ⟨_, _, _, hassign, -⟩
  have hsuffix : t ++ s <:+ before ++ s :=
    hcomes.suffix.trans (Advances.suffix_of_accepted hnumber)
  have hno := h _ ((List.mem_tails _ _).2 hsuffix) hword
  rw [accepts_of_accepted hassign] at hno
  cases hno

/-- The line with a `GOTO` in an arm is read as the line with the number. -/
theorem programLine_of_number {sourceLine : Nat} {line : ProgramLine}
    (h : programLine sourceLine (before ++ s) = .accepted line [])
    (harm : ReadsArm (before ++ s) s) (hn : wholeNumber s = .accepted n rest)
    (hn' : wholeNumber s' = .accepted n rest) (hend : EndsArm rest) (hlead : IsBlank lead)
    (hne : lead ≠ []) (hkept : KeepsAssignments before s (lead ++ ("GOTO".toList ++ s'))) :
    ∃ line', programLine sourceLine (before ++ (lead ++ ("GOTO".toList ++ s'))) =
        .accepted line' [] ∧
      ({ line' with statements := spelledOutList line'.statements } : ProgramLine) =
        { line with statements := spelledOutList line.statements } := by
  obtain ⟨number, after, t, hnumber, hcomes, harm⟩ := harm
  obtain ⟨front, ht, hfront⟩ := harm.exists_front
  have hb : Border (front ++ s) (front ++ (lead ++ ("GOTO".toList ++ s'))) :=
    border_of_number hfront hn hlead hne
  obtain ⟨v, rfl⟩ := ht.trans hcomes.suffix
  obtain ⟨b, hbefore⟩ := (List.suffix_append v _).trans (Advances.suffix_of_accepted hnumber)
  rw [← List.append_assoc] at hbefore
  obtain rfl := List.append_cancel_right hbefore
  obtain ⟨number', _, hnumber', h⟩ := exists_of_bind h
  obtain ⟨rfl, rfl⟩ := Outcome.accepted.inj (hnumber.symm.trans hnumber')
  obtain ⟨xs, left, hxs, h⟩ := exists_of_bind h
  obtain ⟨lead', dark, hblanks, h⟩ := exists_of_bind h
  obtain ⟨_, _, hleft, h⟩ := exists_of_bind h
  obtain ⟨rfl, rfl⟩ := Outcome.accepted.inj hleft
  split at h
  next =>
    obtain ⟨rfl, -⟩ := Outcome.accepted.inj h
    have hkept' : Kept (Text.byteSize (b ++ front ++ s))
        (Text.byteSize (b ++ front ++ (lead ++ ("GOTO".toList ++ s')))) number (front ++ s)
        (front ++ (lead ++ ("GOTO".toList ++ s'))) (v ++ (front ++ s)) := by
      intro u hu hword hassign
      have hassoc (r : List Char) : u ++ (front ++ r) = u ++ front ++ r :=
        (List.append_assoc ..).symm
      rw [hassoc] at hu hword hassign ⊢
      exact hkept number _ hnumber (u ++ front) hu hword hassign
    obtain ⟨ys, rest', hys, heq, hsame⟩ :=
      joins_list hb (armsJoin_of_number hfront hn hn' hend hlead hne) ht hcomes harm rfl hkept' hxs
    rw [List.append_assoc] at hnumber
    obtain ⟨v', hv', -, hnumber''⟩ := (steady_wholeNumber hb).exists_suffix hnumber
    obtain rfl := List.append_cancel_right hv'
    rw [← List.append_assoc] at hnumber''
    obtain ⟨_, lead'', dark, hleft, hblanks'⟩ := hsame.exists_blanks
    obtain ⟨-, rfl⟩ := Outcome.accepted.inj (hblanks.symm.trans hleft)
    refine ⟨⟨number, ys, sourceLine⟩, ?_, congrArg (ProgramLine.mk number · sourceLine) heq⟩
    exact (bind_of_accepted hnumber'').trans ((bind_of_accepted hys).trans
      ((bind_of_accepted hblanks').trans ((bind_of_accepted (p := remaining) rfl).trans rfl)))
  next => cases h

end Number

end LineBasic.Grammar
