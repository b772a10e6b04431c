import LineBasic.Proofs.Grammar.Levels
import LineBasic.Proofs.Grammar.Places

/-!
# Progress

A parser that accepts nothing without taking a character of its input (`Parser.Consumes`) may begin
a round of a loop: the round leaves less of the input (`Parser.Progresses`). So do the rounds of all
loops of the grammar (`Grammar.LoopStep.progresses`), since words and punctuation marks are not
empty, and every expression and every statement has some.
-/

namespace LineBasic.Parser

variable {α β : Type} {p q : Parser α} {s t rest : List Char} {a : α}

theorem Advances.suffix_of_accepted [p.Advances] (h : p s = .accepted a rest) : rest <:+ s := by
  have hplace := Advances.suffix (p := p) s
  rwa [h] at hplace

theorem Advances.length_le [p.Advances] (h : p s = .accepted a rest) : rest.length ≤ s.length :=
  (suffix_of_accepted h).length_le

/-! ## Parsers that consume -/

/-- What is accepted has at least one character. -/
class Consumes (p : Parser α) : Prop where
  shorter {s : List Char} {a : α} {rest : List Char} :
    p s = .accepted a rest → rest.length < s.length

theorem Consumes.bind [hp : p.Consumes] {f : α → Parser β} (hf : ∀ a, (f a).Advances) :
    (p >>= f).Consumes where
  shorter h := by
    obtain ⟨a, t, hfirst, hthen⟩ := exists_of_bind h
    have := hf a
    exact Nat.lt_of_le_of_lt (Advances.length_le hthen) (hp.shorter hfirst)

theorem Consumes.after [p.Advances] {f : α → Parser β} (hf : ∀ a, (f a).Consumes) :
    (p >>= f).Consumes where
  shorter h := by
    obtain ⟨a, t, hfirst, hthen⟩ := exists_of_bind h
    exact Nat.lt_of_lt_of_le ((hf a).shorter hthen) (Advances.length_le hfirst)

instance [p.Consumes] (f : α → β) : (f <$> p).Consumes :=
  .bind (f := fun a => Pure.pure (f a)) inferInstance

instance : (refuse : Parser α).Consumes := ⟨nofun⟩

instance [p.Consumes] [q.Consumes] : (p.orElse q).Consumes where
  shorter h := by
    rw [orElse] at h
    split at h
    · exact Consumes.shorter h
    · exact Consumes.shorter h

instance [p.Consumes] [q.Consumes] : (p <|> q).Consumes :=
  inferInstanceAs (p.orElse q).Consumes

theorem Consumes.wholly (h : p.Consumes) : (wholly p).Consumes :=
  ⟨fun haccepted => h.shorter (of_wholly haccepted)⟩

theorem Consumes.firstOf {parsers : List (Parser α)} (h : ∀ p ∈ parsers, p.Consumes) :
    (firstOf parsers).Consumes := by
  induction parsers with
  | nil => exact inferInstanceAs refuse.Consumes
  | cons p rest ih =>
    obtain ⟨hp, hrest⟩ := List.forall_mem_cons.1 h
    cases rest with
    | nil => exact hp
    | cons q more =>
      have := ih hrest
      exact inferInstanceAs (p.orElse (Parser.firstOf (q :: more))).Consumes

/-- What stands behind an attempt. -/
theorem of_attempt {found : Option α} (h : attempt p s = .accepted found t) :
    (∃ a, found = some a ∧ p s = .accepted a t) ∨ found = none ∧ t = s := by
  rw [attempt] at h
  split at h <;> cases h
  next a ha => exact .inl ⟨a, rfl, ha⟩
  next => exact .inr ⟨rfl, rfl⟩

/-- A part that may be missing, and what stands behind it. -/
theorem shorter_of_found [p.Consumes] {found : Option α} {f : Option α → Parser β} {b : β}
    (hfound : (∃ a, found = some a ∧ p s = .accepted a t) ∨ found = none ∧ t = s)
    (hthen : f found t = .accepted b rest) (hsome : ∀ a, (f (some a)).Advances)
    (hnone : f none s = .accepted b rest → rest.length < s.length) : rest.length < s.length := by
  rcases hfound with ⟨a, rfl, ha⟩ | ⟨rfl, rfl⟩
  · have := hsome a
    exact Nat.lt_of_le_of_lt (Advances.length_le hthen) (Consumes.shorter ha)
  · exact hnone hthen

theorem Consumes.attempt [p.Consumes] {f : Option α → Parser β} (hsome : ∀ a, (f (some a)).Advances)
    (hnone : (f none).Consumes) : (attempt p >>= f).Consumes where
  shorter h := by
    obtain ⟨found, t, hfirst, hthen⟩ := exists_of_bind h
    exact shorter_of_found (of_attempt hfirst) hthen hsome hnone.shorter

theorem Consumes.optional [p.Consumes] {f : Option α → Parser β}
    (hsome : ∀ a, (f (some a)).Advances) (hnone : (f none).Consumes) :
    (optional p >>= f).Consumes where
  shorter h := by
    obtain ⟨found, t, hfirst, hthen⟩ := exists_of_bind h
    refine shorter_of_found ((of_optional hfirst).imp_right ?_) hthen hsome hnone.shorter
    exact fun ⟨hfound, ht, _⟩ => ⟨hfound, ht⟩

instance (class? : Char → Bool) : (satisfy class?).Consumes where
  shorter h := by
    rw [(of_satisfy h).1]
    exact Nat.lt_succ_self _

instance (class? : Char → Bool) : (takeWhile1 class?).Consumes where
  shorter h := by
    obtain ⟨rfl, hne, -⟩ := of_takeWhile1 h
    rw [List.length_append]
    exact Nat.lt_add_of_pos_left (List.length_pos_iff.2 hne)

/-! ## Rounds of loops -/

/-- A round that goes on leaves less of the input. -/
def Progresses (step : Parser (List α × Bool)) : Prop :=
  ∀ ⦃s items rest⦄, step s = .accepted (items, true) rest → rest.length < s.length

/-- A round that does not go on. -/
theorem progresses_stop (items : List α) :
    Progresses (Pure.pure (items, false) : Parser (List α × Bool)) := by
  rintro s items rest ⟨⟩

theorem Consumes.progresses {step : Parser (List α × Bool)} (h : step.Consumes) :
    Progresses step := fun _ _ _ => h.shorter

theorem Progresses.after [p.Advances] {f : α → Parser (List β × Bool)}
    (hf : ∀ a, Progresses (f a)) : Progresses (p >>= f) := fun _ _ _ h => by
  obtain ⟨a, t, hfirst, hthen⟩ := exists_of_bind h
  exact Nat.lt_of_lt_of_le (hf a hthen) (Advances.length_le hfirst)

/-- A round that goes on where something is found. -/
theorem Progresses.attempt [p.Consumes] {f : Option α → Parser (List β × Bool)}
    (hsome : ∀ a, (f (some a)).Advances) (hnone : Progresses (f none)) :
    Progresses (attempt p >>= f) := fun _ _ _ h => by
  obtain ⟨found, t, hfirst, hthen⟩ := exists_of_bind h
  exact shorter_of_found (of_attempt hfirst) hthen hsome fun h => hnone h

theorem Progresses.optional [p.Consumes] {f : Option α → Parser (List β × Bool)}
    (hsome : ∀ a, (f (some a)).Advances) (hnone : Progresses (f none)) :
    Progresses (optional p >>= f) := fun _ _ _ h => by
  obtain ⟨found, t, hfirst, hthen⟩ := exists_of_bind h
  refine shorter_of_found ((of_optional hfirst).imp_right ?_) hthen hsome fun h => hnone h
  exact fun ⟨hfound, ht, _⟩ => ⟨hfound, ht⟩

end LineBasic.Parser

namespace LineBasic.Grammar

open LineBasic.Parser

/-! ## Words, names and numbers -/

theorem length_lt_of_splitBytes? {n : Nat} {s front rest : List Char} (hn : n ≠ 0)
    (h : Text.splitBytes? n s = some (front, rest)) : rest.length < s.length := by
  obtain ⟨n, rfl⟩ := Nat.exists_eq_succ_of_ne_zero hn
  cases s with
  | nil => simp [Text.splitBytes?] at h
  | cons c s =>
    rw [Text.splitBytes?] at h
    split at h
    · obtain ⟨⟨front', rest'⟩, hrest, heq⟩ := Option.map_eq_some_iff.1 h
      cases heq
      exact Nat.lt_succ_of_le (suffix_of_splitBytes? hrest).length_le
    · cases h

theorem consumes_word {w : String} (hw : w ≠ "") : (word w).Consumes where
  shorter {s a rest} h := by
    rw [word] at h
    split at h
    · split at h
      next front rest' hsplit =>
        cases h
        exact length_lt_of_splitBytes? (by simpa using hw) hsplit
      next => cases h
    · cases h

theorem consumes_keyword {w : String} (hw : w ≠ "") : (keyword w).Consumes := by
  refine .after fun _ => .wholly ?_
  have := consumes_word hw
  refine .bind fun _ => .bind fun rest => ?_
  split
  · split <;> infer_instance
  · infer_instance

theorem consumes_exactly {sign : List Char} (hsign : sign ≠ []) : (exactly sign).Consumes where
  shorter {s a rest} h := by
    rw [exactly] at h
    split at h
    next hprefix =>
      cases h
      have hle := (List.isPrefixOf_iff_prefix.1 hprefix).length_le
      have hpos := List.length_pos_iff.2 hsign
      rw [List.length_drop]
      omega
    next => cases h

theorem consumes_symbol {w : String} (hw : w ≠ "") : (symbol w).Consumes :=
  .after fun _ => consumes_exactly (by simpa using hw)

instance : spelledName.Consumes := .bind fun _ => inferInstance

instance : variableName.Consumes :=
  .after fun _ => .wholly <| .bind fun _ => by dsimp only; split <;> infer_instance

instance : functionName.Consumes :=
  have := consumes_word (w := "FN") (by decide)
  .after fun _ => .bind fun _ => inferInstance

instance : wholeNumber.Consumes :=
  .after fun _ => .wholly <| .bind fun _ => by dsimp only; split <;> infer_instance

instance : quoted.Consumes := .after fun _ => .bind fun _ => inferInstance

instance : mantissa.Consumes :=
  .optional (fun _ => .bind fun point => by cases point <;> infer_instance) <|
    .bind fun _ => inferInstance

instance : decimal.Consumes := .bind fun _ => inferInstance

instance : hexadecimal.Consumes :=
  have := consumes_word (w := "&H") (by decide)
  .bind fun _ => inferInstance

instance : number.Consumes :=
  .after fun _ => .after fun _ => .attempt (fun _ => inferInstance) <| .bind fun _ => inferInstance

/-! ## Expressions -/

instance : intrinsicName.Consumes :=
  .after fun _ => .wholly <| .bind fun _ => by split <;> infer_instance

theorem consumes_operatorOf {spellings : List (String × BinaryOp)}
    (h : ∀ o ∈ spellings, o.1 ≠ "") : (operatorOf spellings).Consumes :=
  .firstOf <| List.forall_mem_map.2 fun o ho => by
    have := consumes_keyword (h o ho)
    have := consumes_symbol (h o ho)
    dsimp only
    split
    · exact .bind fun _ => inferInstance
    · exact .bind fun _ => inferInstance

section

variable {inner operand : Parser (Expr Float)} [inner.Advances] [operand.Advances]
  {operator : Parser BinaryOp} [operator.Advances]

instance : (atom inner).Consumes := by
  have := consumes_symbol (w := "(") (by decide)
  refine .firstOf ?_
  simp only [List.forall_mem_cons]
  refine ⟨.bind fun _ => inferInstance, inferInstanceAs (Expr.string <$> quoted).Consumes,
    .bind fun _ => inferInstance, .bind fun _ => inferInstance, ?_, nofun⟩
  refine .optional (fun _ => inferInstance) <| .bind fun _ => .bind fun found => ?_
  cases found <;> infer_instance

instance [operand.Consumes] : (leftGrouped operator operand).Consumes :=
  .bind fun _ => .seq (.repeated <| .bind fun found => by cases found <;> infer_instance) fun _ =>
    inferInstance

instance : (powerExpr inner).Consumes :=
  .bind fun _ => .seq (.repeated <| .bind fun found => by cases found <;> infer_instance) fun _ =>
    inferInstance

instance : (negationExpr inner).Consumes := by
  have : (repeated (markStep (symbol "-" <|> symbol "+") id)).Advances :=
    .repeated <| .bind fun found => by cases found <;> infer_instance
  rw [negationExpr_eq]
  exact .after fun _ => inferInstance

instance : (relationalExpr inner).Advances := by
  unfold relationalExpr additiveExpr modExpr intDivExpr multiplicativeExpr
  infer_instance

instance : (relationalExpr inner).Consumes := by
  unfold relationalExpr additiveExpr modExpr intDivExpr multiplicativeExpr
  infer_instance

instance : (notExpr inner).Advances := by unfold notExpr; infer_instance

instance : (notExpr inner).Consumes := .after fun _ => .bind fun _ => inferInstance

instance : (impExpr inner).Consumes := by
  unfold impExpr eqvExpr xorExpr orExpr andExpr
  infer_instance

end

instance (depth : Nat) : (nested depth).Consumes := by
  cases depth with
  | zero => exact inferInstanceAs refuse.Consumes
  | succ depth => exact inferInstanceAs (impExpr (nested depth)).Consumes

instance : expression.Consumes where
  shorter {s _ _} h := (inferInstance : (nested (s.length + 1)).Consumes).shorter h

instance : target.Consumes :=
  .bind fun _ => .bind fun found => by cases found <;> infer_instance

/-! ## Statements -/

/-- A statement begins with a word. -/
theorem consumes_behind {α : Type} {w : String} (hw : w ≠ "") {f : String → Parser α}
    (hf : ∀ found, (f found).Advances) : (keyword w >>= f).Consumes :=
  have := consumes_keyword hw
  .bind hf

/-- An item of a `PRINT` list, up to the end of the statement. -/
def printStep : Parser (List PrintItem × Bool) := do
  let _ ← blanks
  let rest ← remaining
  if atStatementEnd rest then return ([], false)
  else match ← attempt (exactly [','] <|> exactly [';']) with
    | some mark => return ([if mark == "," then .zone else .join], true)
    | none => return ([.expr (← expression)], true)

/-- An expression or a separator behind the keyword of a device. -/
def deviceStep : Parser (List (Expr Float) × Bool) := do
  let _ ← blanks
  if atStatementEnd (← remaining) then return ([], false)
  else match ← attempt (exactly [','] <|> exactly [';'] <|> exactly ['#'] <|> keyword "AS") with
    | some _ => return ([], true)
    | none => return ([← expression], true)

instance : printStep.Advances := by
  refine .bind fun _ => .bind fun _ => ?_
  split
  · infer_instance
  · exact .bind fun mark => by cases mark <;> infer_instance

instance : deviceStep.Advances := by
  refine .bind fun _ => .bind fun _ => ?_
  split
  · infer_instance
  · exact .bind fun mark => by cases mark <;> infer_instance

instance : printForm.Consumes := by
  have := consumes_keyword (w := "PRINT") (by decide)
  have := consumes_keyword (w := "LPRINT") (by decide)
  have := consumes_symbol (w := "?") (by decide)
  have : (repeated printStep).Advances := .repeated inferInstance
  exact .bind fun _ => .bind fun _ => .bind fun _ => .seq this fun _ => inferInstance

theorem consumes_keywordOf {words : List String} (h : ∀ w ∈ words, w ≠ "") :
    (keywordOf words).Consumes :=
  .firstOf <| List.forall_mem_map.2 fun _ hw => consumes_behind (h _ hw) fun _ => inferInstance

instance : deviceForm.Consumes := by
  have : (keywordOf deviceWords).Consumes := consumes_keywordOf (by decide)
  have : (repeated deviceStep).Advances := .repeated inferInstance
  exact .bind fun _ => .seq this fun _ => inferInstance

instance : remarkForm.Consumes := by
  have := consumes_word (w := "REM") (by decide)
  have : (exactly ['\'']).Consumes := consumes_exactly (by decide)
  exact .after fun _ => .bind fun _ => ⟨fun _ => List.nil_suffix⟩

instance : defTypeForm.Consumes :=
  have : (firstOf (typeWords.map fun (w, type) => do
      let _ ← keyword w
      return type)).Consumes :=
    .firstOf <| List.forall_mem_map.2 fun o ho =>
      consumes_behind ((by decide : ∀ o ∈ typeWords, o.1 ≠ "") o ho) fun _ => inferInstance
  .bind fun _ => by
    unfold letter
    infer_instance

instance : forForm.Consumes :=
  consumes_behind (by decide) fun _ => .bind fun _ => .bind fun _ => .bind fun _ => inferInstance

instance : dataForm.Consumes := consumes_behind (by decide) fun _ => ⟨suffix_splitData false⟩

instance : onForm.Consumes :=
  consumes_behind (by decide) fun _ => .bind fun found => by cases found <;> infer_instance

instance : resumeForm.Consumes :=
  consumes_behind (by decide) fun _ => .bind fun found => by
    cases found with
    | some => infer_instance
    | none => exact .bind fun line => by split <;> infer_instance

instance : randomizeForm.Consumes :=
  consumes_behind (by decide) fun _ => .bind fun _ => by split <;> infer_instance

instance : assignForm.Consumes := .after fun _ => .bind fun _ => inferInstance

theorem consumes_of_mem_commandForms : ∀ form ∈ commandForms, form.Consumes := by
  have interactive : ∀ w ∈ promptWords, (interactiveForm w).Consumes := fun w hw =>
    consumes_behind ((by decide : ∀ w ∈ promptWords, w ≠ "") w hw) fun _ => inferInstance
  unfold commandForms nextForm whileForm gotoForm gosubForm bareForm lineInputForm inputForm
    readForm restoreForm dimForm optionBaseForm defFnForm swapForm commonForm eraseForm
  simp only [List.cons_append, List.nil_append, List.forall_mem_cons, List.forall_mem_append,
    List.forall_mem_map]
  repeat' apply And.intro
  any_goals exact List.forall_mem_nil _
  all_goals
    first
    | infer_instance
    | exact consumes_behind (by decide) fun _ => inferInstance
    | exact interactive

section

variable {inner : Parser (List Statement)} [inner.Advances]

instance (place : Place) : (conditionalForm inner place).Consumes :=
  consumes_behind (by decide) fun _ => by
    unfold thenArm
    infer_instance

instance (size number : Nat) : (statementWith inner size number).Consumes := by
  refine .after fun _ => .after fun rest => .firstOf ?_
  simp only [List.cons_append, List.nil_append, List.forall_mem_cons, List.forall_mem_map]
  refine ⟨inferInstance, inferInstance, inferInstance, fun form hform => ?_⟩
  have := consumes_of_mem_commandForms form hform
  infer_instance

/-- A statement or a colon, and whether further ones may follow. -/
def statementsStep (inner : Parser (List Statement)) (size number : Nat) :
    Parser (List Statement × Bool) := do
  let _ ← blanks
  match ← remaining with
  | [] => return ([], false)
  | ':' :: _ =>
    let _ ← exactly [':']
    return ([], true)
  | rest =>
    if (keyword "ELSE").accepts rest then return ([], false)
    else
      let statement ← statementWith inner size number
      let _ ← blanks
      match ← remaining with
      | ':' :: _ | '\'' :: _ => return ([statement], true)
      | _ => return ([statement], false)

instance (size number : Nat) : (statementsStep inner size number).Advances := by
  refine .bind fun _ => .bind fun rest => ?_
  split
  · infer_instance
  · infer_instance
  · split
    · infer_instance
    · exact .bind fun _ => .bind fun _ => .bind fun rest => by split <;> infer_instance

end

/-! ## Loops -/

/-- The rounds of the loops of the grammar. -/
inductive LoopStep : {α : Type} → Parser (List α × Bool) → Prop
  /-- A comma and the next element of a list. -/
  | further {α : Type} {element : Parser α} : element.Advances →
    LoopStep (furtherStep (symbol ",") element)
  /-- An operator of a binding strength and its right operand. -/
  | join {operand : Parser (Expr Float)} (p : Nat) : operand.Advances →
    LoopStep (joinStep (operatorOf (spellingsAt p)) operand)
  | power {inner : Parser (Expr Float)} : inner.Advances → LoopStep (powerStep inner)
  /-- A sign before an exponent. -/
  | minus : LoopStep (markStep (symbol "-") fun _ => ())
  /-- A sign before a product. -/
  | sign : LoopStep (markStep (symbol "-" <|> symbol "+") id)
  | not : LoopStep (markStep (keyword "NOT") fun _ => ())
  | printItem : LoopStep printStep
  | deviceArgument : LoopStep deviceStep
  | statement {inner : Parser (List Statement)} (size number : Nat) : inner.Advances →
    LoopStep (statementsStep inner size number)

instance {α : Type} {separator : Parser String} {element : Parser α} [separator.Advances]
    [element.Advances] : (furtherStep separator element).Advances :=
  .bind fun found => by cases found <;> infer_instance

instance {operator : Parser BinaryOp} {operand : Parser (Expr Float)} [operator.Advances]
    [operand.Advances] : (joinStep operator operand).Advances :=
  .bind fun found => by cases found <;> infer_instance

instance {inner : Parser (Expr Float)} [inner.Advances] : (powerStep inner).Advances :=
  .bind fun found => by cases found <;> infer_instance

instance {α β : Type} {marker : Parser α} [marker.Advances] (item : α → β) :
    (markStep marker item).Advances :=
  .bind fun found => by cases found <;> infer_instance

theorem spellingsAt_ne_empty (p : Nat) : ∀ o ∈ spellingsAt p, o.1 ≠ "" := by
  unfold spellingsAt
  split <;> decide

theorem progresses_markStep {α β : Type} {marker : Parser α} [marker.Consumes] (item : α → β) :
    Progresses (markStep marker item) :=
  .attempt (fun _ => inferInstance) (progresses_stop [])

theorem progresses_printStep : Progresses printStep := by
  have : (exactly [',']).Consumes := consumes_exactly (by decide)
  have : (exactly [';']).Consumes := consumes_exactly (by decide)
  refine .after fun _ => .after fun rest => ?_
  split
  · exact progresses_stop []
  · refine .attempt (fun _ => inferInstance) (Consumes.progresses ?_)
    exact .bind fun _ => inferInstance

theorem progresses_deviceStep : Progresses deviceStep := by
  have : (exactly [',']).Consumes := consumes_exactly (by decide)
  have : (exactly [';']).Consumes := consumes_exactly (by decide)
  have : (exactly ['#']).Consumes := consumes_exactly (by decide)
  have := consumes_keyword (w := "AS") (by decide)
  refine .after fun _ => .after fun rest => ?_
  split
  · exact progresses_stop []
  · refine .attempt (fun _ => inferInstance) (Consumes.progresses ?_)
    exact .bind fun _ => inferInstance

theorem progresses_statementsStep {inner : Parser (List Statement)} [inner.Advances]
    (size number : Nat) : Progresses (statementsStep inner size number) := by
  refine .after fun _ => .after fun rest => ?_
  split
  · exact progresses_stop []
  · have : (exactly [':']).Consumes := consumes_exactly (by decide)
    exact Consumes.progresses (.bind fun _ => inferInstance)
  · split
    · exact progresses_stop []
    · refine Consumes.progresses (.bind fun _ => .bind fun _ => .bind fun rest => ?_)
      split <;> infer_instance

/-- Each round of a loop of the grammar that goes on leaves less of the input. -/
theorem LoopStep.progresses {α : Type} {step : Parser (List α × Bool)} (h : LoopStep step) :
    Progresses step := by
  cases h with
  | @further α element _ =>
    have := consumes_symbol (w := ",") (by decide)
    have : (symbol "," >>= fun _ => element).Consumes := .bind fun _ => inferInstance
    exact .optional (fun _ => inferInstance) (progresses_stop [])
  | join p _ =>
    have := consumes_operatorOf (spellingsAt_ne_empty p)
    exact .attempt (fun _ => inferInstance) (progresses_stop [])
  | power _ =>
    have := consumes_symbol (w := "^") (by decide)
    exact .attempt (fun _ => inferInstance) (progresses_stop [])
  | minus =>
    have := consumes_symbol (w := "-") (by decide)
    exact progresses_markStep _
  | sign =>
    have := consumes_symbol (w := "-") (by decide)
    have := consumes_symbol (w := "+") (by decide)
    exact progresses_markStep _
  | not =>
    have := consumes_keyword (w := "NOT") (by decide)
    exact progresses_markStep _
  | printItem => exact progresses_printStep
  | deviceArgument => exact progresses_deviceStep
  | statement size number _ => exact progresses_statementsStep size number

theorem LoopStep.advances {α : Type} {step : Parser (List α × Bool)} (h : LoopStep step) :
    step.Advances := by
  cases h <;> infer_instance

end LineBasic.Grammar
