import LineBasic.Grammar.Program

/-!
# Places that parsers reach

Whatever a parser makes of its input, what is left of the input at the place that it has reached is
an end of it (`Parser.Advances`). Each combinator keeps this, so it is found by instance search for
the parsers of the grammar, up to program lines.
-/

namespace LineBasic

variable {α β : Type}

/-- What is left of the input at the place that was reached. -/
def Outcome.place : Outcome α → List Char
  | .accepted _ rest => rest
  | .refused place | .aborted place => place

namespace Parser

/-- What is left at the place that the parser reaches is an end of its input. -/
class Advances (p : Parser α) : Prop where
  suffix (s : List Char) : (p s).place <:+ s

variable {p q : Parser α}

/-! ## Combinators -/

/-- The place that is reached is the input, or one that another parser reaches. -/
theorem Advances.of_place [p.Advances] {q : Parser β}
    (h : ∀ s, (q s).place = (p s).place ∨ (q s).place = s) : q.Advances where
  suffix s := by
    rcases h s with h | h
    · exact h.symm ▸ suffix s
    · simp [h]

theorem Advances.seq {f : α → Parser β} (hp : p.Advances) (hf : ∀ a, (f a).Advances) :
    (p >>= f).Advances where
  suffix s := by
    change (Parser.bind p f s).place <:+ s
    have hplace := hp.suffix s
    rw [Parser.bind]
    cases h : p s with
    | accepted a rest =>
      rw [h] at hplace
      exact ((hf a).suffix rest).trans hplace
    | refused place => rwa [h] at hplace
    | aborted place => rwa [h] at hplace

theorem Advances.bind [hp : p.Advances] {f : α → Parser β} (hf : ∀ a, (f a).Advances) :
    (p >>= f).Advances := hp.seq hf

instance [p.Advances] {f : α → Parser β} [hf : ∀ a, (f a).Advances] : (p >>= f).Advances := .bind hf

instance (a : α) : (Pure.pure a : Parser α).Advances := ⟨List.suffix_refl⟩

instance [p.Advances] (f : α → β) : (f <$> p).Advances :=
  inferInstanceAs (p >>= fun a => Pure.pure (f a)).Advances

instance : (refuse : Parser α).Advances := ⟨List.suffix_refl⟩

instance : remaining.Advances := ⟨List.suffix_refl⟩

instance [p.Advances] [q.Advances] : (p.orElse q).Advances where
  suffix s := by
    have hplace := Advances.suffix (p := p) s
    rw [orElse]
    cases h : p s with
    | accepted => rwa [h] at hplace
    | refused => exact Advances.suffix s
    | aborted => rwa [h] at hplace

instance [p.Advances] [q.Advances] : (p <|> q).Advances :=
  inferInstanceAs (p.orElse q).Advances

instance [p.Advances] : (optional p).Advances :=
  .of_place (p := p) fun s => by
    rw [optional]
    cases p s <;> simp [Outcome.place]

instance [p.Advances] : (attempt p).Advances :=
  .of_place (p := p) fun s => by
    rw [attempt]
    cases p s <;> simp [Outcome.place]

theorem Advances.wholly (h : p.Advances) : (wholly p).Advances :=
  .of_place (p := p) fun s => by
    rw [Parser.wholly]
    cases p s <;> simp [Outcome.place]

instance [p.Advances] : (committed p).Advances :=
  .of_place (p := p) fun s => by
    rw [committed]
    cases p s <;> simp [Outcome.place]

theorem Advances.firstOf {parsers : List (Parser α)} (h : ∀ p ∈ parsers, p.Advances) :
    (firstOf parsers).Advances := by
  induction parsers with
  | nil => exact inferInstanceAs refuse.Advances
  | cons p rest ih =>
    obtain ⟨hp, hrest⟩ := List.forall_mem_cons.1 h
    cases rest with
    | nil => exact hp
    | cons q more =>
      have := ih hrest
      exact inferInstanceAs (p.orElse (Parser.firstOf (q :: more))).Advances

instance (class? : Char → Bool) : (satisfy class?).Advances where
  suffix s := by
    cases s with
    | nil => exact List.suffix_refl []
    | cons c s =>
      rw [satisfy]
      split
      · exact List.suffix_cons c s
      · exact List.suffix_refl _

instance (class? : Char → Bool) : (takeWhile class?).Advances :=
  ⟨fun _ => List.dropWhile_suffix class?⟩

instance (class? : Char → Bool) : (takeWhile1 class?).Advances where
  suffix s := by
    rw [takeWhile1]
    split
    · exact List.suffix_refl s
    · exact List.dropWhile_suffix class?

theorem Advances.repeated {step : Parser (List α × Bool)} (h : step.Advances) :
    (repeated step).Advances := by
  have rounds (n : Nat) : (gather step n).Advances := by
    induction n with
    | zero => exact inferInstanceAs refuse.Advances
    | succ n ih =>
      refine .bind fun r => ?_
      dsimp only
      split <;> infer_instance
  exact ⟨fun s => (rounds (s.length + 1)).suffix s⟩

instance {separator : Parser β} [separator.Advances] [p.Advances] :
    (separated1 separator p).Advances :=
  .bind fun _ => .seq (.repeated <| .bind fun found => by cases found <;> infer_instance) fun _ =>
    inferInstance

instance {separator : Parser β} [separator.Advances] [p.Advances] :
    (separated separator p).Advances :=
  .bind fun found => by cases found <;> infer_instance

end Parser

namespace Grammar

open LineBasic.Parser

/-! ## Words, names and numbers -/

instance : blanks.Advances := inferInstanceAs (takeWhile _).Advances

theorem suffix_of_splitBytes? {n : Nat} {s front rest : List Char}
    (h : Text.splitBytes? n s = some (front, rest)) : rest <:+ s := by
  induction s generalizing n front with
  | nil =>
    cases n <;> rw [Text.splitBytes?] at h <;> cases h
    exact List.suffix_refl []
  | cons c s ih =>
    cases n with
    | zero =>
      rw [Text.splitBytes?] at h
      cases h
      exact List.suffix_refl _
    | succ n =>
      rw [Text.splitBytes?] at h
      split at h
      · obtain ⟨⟨front', rest'⟩, hrest, heq⟩ := Option.map_eq_some_iff.1 h
        cases heq
        exact (ih hrest).trans (List.suffix_cons c s)
      · cases h

instance (w : String) : (word w).Advances where
  suffix s := by
    rw [word]
    split
    · split
      next h => exact suffix_of_splitBytes? h
      next => exact List.suffix_refl s
    · exact List.suffix_refl s

instance (w : String) : (keyword w).Advances :=
  .bind fun _ => .wholly <| .bind fun _ => .bind fun rest => by
    split
    · split <;> infer_instance
    · infer_instance

instance (sign : List Char) : (exactly sign).Advances where
  suffix s := by
    rw [exactly]
    split
    · exact List.drop_suffix sign.length s
    · exact List.suffix_refl s

instance (sign : String) : (symbol sign).Advances := by unfold symbol; infer_instance

instance : spelledName.Advances := by unfold spelledName; infer_instance

instance : variableName.Advances :=
  .bind fun _ => .wholly <| .bind fun _ => by dsimp only; split <;> infer_instance

instance : functionName.Advances := by unfold functionName; infer_instance

instance : wholeNumber.Advances :=
  .bind fun _ => .wholly <| .bind fun _ => by dsimp only; split <;> infer_instance

instance : quoted.Advances := by unfold quoted; infer_instance

instance : mantissa.Advances :=
  .bind fun front => by
    cases front with
    | none => infer_instance
    | some => exact .bind fun point => by cases point <;> infer_instance

instance : exponentPart.Advances := by unfold exponentPart; infer_instance

instance : decimal.Advances := by unfold decimal; infer_instance

instance : hexadecimal.Advances := by unfold hexadecimal; infer_instance

instance : number.Advances :=
  .bind fun _ => .bind fun _ => .bind fun found => by cases found <;> infer_instance

/-! ## Expressions -/

instance {operator : Parser BinaryOp} {operand : Parser (Expr Float)} [operator.Advances]
    [operand.Advances] : (leftGrouped operator operand).Advances :=
  .bind fun _ => .seq (.repeated <| .bind fun found => by cases found <;> infer_instance) fun _ =>
    inferInstance

instance (spellings : List (String × BinaryOp)) : (operatorOf spellings).Advances :=
  .firstOf <| List.forall_mem_map.2 fun (spelling, op) _ => by
    dsimp only
    split <;> infer_instance

instance {marker : Parser String} [marker.Advances] : (counted marker).Advances :=
  .seq (.repeated <| .bind fun found => by cases found <;> infer_instance) fun _ => inferInstance

instance : intrinsicName.Advances :=
  .bind fun _ => .wholly <| .bind fun _ => by split <;> infer_instance

section

variable {inner : Parser (Expr Float)} [inner.Advances]

instance : (arguments inner).Advances := by unfold arguments; infer_instance

instance : (subscripts? inner).Advances :=
  .bind fun _ => by split <;> infer_instance

instance : (namedExpr inner).Advances :=
  .bind fun found => by
    cases found with
    | some => infer_instance
    | none => exact .bind fun _ => .bind fun found => by cases found <;> infer_instance

instance : (atom inner).Advances := by
  refine .firstOf ?_
  simp only [numberExpr, stringExpr, enclosed, userCall, List.forall_mem_cons]
  exact ⟨inferInstance, inferInstance, inferInstance, inferInstance, inferInstance, nofun⟩

instance : (exponentExpr inner).Advances := by unfold exponentExpr; infer_instance

instance : (powerExpr inner).Advances :=
  .bind fun _ => .seq (.repeated <| .bind fun found => by cases found <;> infer_instance) fun _ =>
    inferInstance

instance : (negationExpr inner).Advances :=
  .seq (.repeated <| .bind fun found => by cases found <;> infer_instance) fun _ => inferInstance

instance : (impExpr inner).Advances := by
  have : (relationalExpr inner).Advances := by
    unfold relationalExpr additiveExpr modExpr intDivExpr multiplicativeExpr
    infer_instance
  unfold impExpr eqvExpr xorExpr orExpr andExpr notExpr
  infer_instance

end

instance (depth : Nat) : (nested depth).Advances := by
  induction depth with
  | zero => exact inferInstanceAs refuse.Advances
  | succ depth ih => exact inferInstanceAs (impExpr (nested depth)).Advances

instance : expression.Advances := ⟨fun s => Advances.suffix (p := nested (s.length + 1)) s⟩

instance : target.Advances :=
  .bind fun _ => .bind fun found => by cases found <;> infer_instance

/-! ## Commands -/

instance : channel.Advances := by unfold channel; infer_instance

instance : prompt.Advances := by unfold prompt; infer_instance

instance : nameList.Advances := by unfold nameList; infer_instance

instance (words : List String) : (keywordOf words).Advances :=
  .firstOf <| List.forall_mem_map.2 fun _ _ => inferInstance

instance : printForm.Advances := by
  refine .bind fun _ => .bind fun _ => .bind fun _ => .seq (.repeated ?_) fun _ => inferInstance
  refine .bind fun _ => .bind fun _ => ?_
  split
  · infer_instance
  · exact .bind fun mark => by cases mark <;> infer_instance

theorem suffix_splitData (isQuoted : Bool) (s : List Char) : (splitData isQuoted s).2 <:+ s := by
  induction s generalizing isQuoted with
  | nil => exact List.suffix_refl []
  | cons c s ih =>
    rw [splitData]
    split
    · exact List.suffix_refl _
    · dsimp only
      have hrest := (ih (if c = '"' then !isQuoted else isQuoted)).trans (List.suffix_cons c s)
      split
      · exact hrest
      · split <;> exact hrest

instance : dataForm.Advances := .bind fun _ => ⟨suffix_splitData false⟩

instance : defTypeForm.Advances :=
  .seq (.firstOf <| List.forall_mem_map.2 fun _ _ => inferInstance) fun _ => by
    unfold letter
    infer_instance

instance : onForm.Advances :=
  .bind fun _ => .bind fun found => by cases found <;> infer_instance

instance : resumeForm.Advances :=
  .bind fun _ => .bind fun found => by
    cases found with
    | some => infer_instance
    | none => exact .bind fun line => by split <;> infer_instance

instance : randomizeForm.Advances :=
  .bind fun _ => .bind fun _ => by split <;> infer_instance

instance : remarkForm.Advances := .bind fun _ => .bind fun _ => ⟨fun _ => List.nil_suffix⟩

instance : deviceForm.Advances := by
  refine .bind fun _ => .seq (.repeated ?_) fun _ => inferInstance
  refine .bind fun _ => .bind fun _ => ?_
  split
  · infer_instance
  · exact .bind fun mark => by cases mark <;> infer_instance

instance : forForm.Advances :=
  .bind fun _ => .bind fun _ => .bind fun _ => .bind fun _ => inferInstance

theorem advances_of_mem_commandForms : ∀ form ∈ commandForms, form.Advances := by
  have interactive : ∀ w ∈ promptWords, (interactiveForm w).Advances := fun w _ => by
    unfold interactiveForm
    infer_instance
  unfold commandForms nextForm whileForm gotoForm gosubForm bareForm lineInputForm inputForm
    readForm restoreForm dimForm optionBaseForm defFnForm swapForm commonForm eraseForm assignForm
  simp only [List.cons_append, List.nil_append, List.forall_mem_cons, List.forall_mem_append,
    List.forall_mem_map]
  repeat' apply And.intro
  any_goals exact List.forall_mem_nil _
  all_goals first | infer_instance | exact interactive

/-! ## Statements and lines -/

section

variable {inner : Parser (List Statement)} [inner.Advances]

instance : (arm inner).Advances where
  suffix s := by
    have hblock := Advances.suffix (p := Arm.block <$> inner) s
    rw [arm]
    split
    next n rest haccepted =>
      split
      · have hnumber := Advances.suffix (p := wholeNumber) s
        rwa [haccepted] at hnumber
      · exact hblock
    next => exact hblock

instance (place : Place) : (conditionalForm inner place).Advances := by
  unfold conditionalForm thenArm
  infer_instance

instance (size number : Nat) : (statementWith inner size number).Advances := by
  refine .bind fun _ => .bind fun rest => .firstOf ?_
  simp only [List.cons_append, List.nil_append, List.forall_mem_cons, List.forall_mem_map]
  refine ⟨inferInstance, inferInstance, inferInstance, fun form hform => ?_⟩
  have := advances_of_mem_commandForms form hform
  infer_instance

instance (size number : Nat) : (statementsWith inner size number).Advances := by
  refine .repeated <| .bind fun _ => .bind fun rest => ?_
  split
  · infer_instance
  · infer_instance
  · split
    · infer_instance
    · exact .bind fun _ => .bind fun _ => .bind fun rest => by split <;> infer_instance

end

instance (size number depth : Nat) : (statementsNested size number depth).Advances := by
  induction depth with
  | zero => exact inferInstanceAs refuse.Advances
  | succ depth ih => exact inferInstanceAs (statementsWith _ size number).Advances

instance (size number : Nat) : (statements size number).Advances :=
  ⟨fun s => Advances.suffix (p := statementsNested size number (s.length + 1)) s⟩

/-- What is left of a line where its reading stops is an end of the line. -/
instance (sourceLine : Nat) : (programLine sourceLine).Advances where
  suffix text := by
    refine (Advances.bind fun number => ?_ : Advances (_ >>= _)).suffix text
    exact .bind fun _ => .bind fun _ => .bind fun rest => by split <;> infer_instance

end Grammar
end LineBasic
