import Mathlib.Data.List.Forall2
import LineBasic.Proofs.Grammar.Progress

/-!
# Recursion of the grammar

The loops and the recursion of the grammar are bounded by the length of the input, and the bounds
are never reached: without them, each would be given by an equation, and the parser is the only
solution of that equation (`Grammar.LoopStep.eq_repeated_iff`, `Grammar.eq_expression_iff`,
`Grammar.eq_statements_iff`). The reason is the same in all cases. What is on the right of the
equation takes at least one character before it recurs (`Parser.Guarded`), so solutions that agree
on the inputs below some length agree one character further.
-/

namespace LineBasic.Parser

variable {α β : Type} {n : Nat} {p q : Parser α}

/-- The parsers agree on inputs of less than `n` characters. -/
def AgreeBelow (n : Nat) (p q : Parser α) : Prop := ∀ s : List Char, s.length < n → p s = q s

/-! ## Combinators -/

namespace AgreeBelow

theorem refl (n : Nat) (p : Parser α) : AgreeBelow n p p := fun _ _ => rfl

theorem seq (h : AgreeBelow n p q) (hq : q.Advances) {f g : α → Parser β}
    (hfg : ∀ a, AgreeBelow n (f a) (g a)) : AgreeBelow n (p >>= f) (q >>= g) := by
  intro s hs
  change Parser.bind p f s = Parser.bind q g s
  rw [Parser.bind, Parser.bind, h s hs]
  cases hfirst : q s with
  | accepted a rest => exact hfg a rest (Nat.lt_of_le_of_lt (Advances.length_le hfirst) hs)
  | refused | aborted => rfl

theorem bind [p.Advances] {f g : α → Parser β} (hfg : ∀ a, AgreeBelow n (f a) (g a)) :
    AgreeBelow n (p >>= f) (p >>= g) := (refl n p).seq inferInstance hfg

/-- What stands behind something consumed has one character less. -/
theorem behind [p.Consumes] {f g : α → Parser β} (hfg : ∀ a, AgreeBelow n (f a) (g a)) :
    AgreeBelow (n + 1) (p >>= f) (p >>= g) := by
  intro s hs
  change Parser.bind p f s = Parser.bind p g s
  rw [Parser.bind, Parser.bind]
  cases hfirst : p s with
  | accepted a rest =>
    exact hfg a rest (Nat.lt_of_lt_of_le (Consumes.shorter hfirst) (Nat.le_of_lt_succ hs))
  | refused | aborted => rfl

theorem map (h : AgreeBelow n p q) (f : α → β) : AgreeBelow n (f <$> p) (f <$> q) := by
  intro s hs
  change Parser.bind p _ s = Parser.bind q _ s
  rw [Parser.bind, Parser.bind, h s hs]

theorem orElse {p' q' : Parser α} (h : AgreeBelow n p q) (h' : AgreeBelow n p' q') :
    AgreeBelow n (p.orElse p') (q.orElse q') := fun s hs => by
  rw [Parser.orElse, Parser.orElse, h s hs, h' s hs]

theorem optional (h : AgreeBelow n p q) : AgreeBelow n (optional p) (optional q) := fun s hs => by
  rw [Parser.optional, Parser.optional, h s hs]

theorem firstOf {parsers parsers' : List (Parser α)}
    (h : List.Forall₂ (AgreeBelow n) parsers parsers') :
    AgreeBelow n (firstOf parsers) (firstOf parsers') := by
  induction h with
  | nil => exact refl n _
  | @cons p p' rest rest' hp hrest ih =>
    cases hrest with
    | nil => exact hp
    | cons => exact hp.orElse ih

end AgreeBelow

/-! ## Recursive equations -/

/-- What `F` does with an input depends on what its argument does with shorter ones. -/
def Guarded (F : Parser α → Parser α) : Prop :=
  ∀ ⦃n p q⦄, q.Advances → AgreeBelow n p q → AgreeBelow (n + 1) (F p) (F q)

section

variable {F : Parser α → Parser α} {approx : Nat → Parser α} [∀ d, (approx d).Advances]

/-- Approximations agree on the inputs that are shorter than their bounds. -/
theorem Guarded.agreeBelow (hF : Guarded F) (hsucc : ∀ d, approx (d + 1) = F (approx d))
    {d d' : Nat} (hd : n ≤ d) (hd' : n ≤ d') : AgreeBelow n (approx d) (approx d') := by
  induction n generalizing d d' with
  | zero => exact fun _ hs => absurd hs (Nat.not_lt_zero _)
  | succ n ih =>
    obtain ⟨d, rfl⟩ := Nat.exists_eq_add_of_le' (Nat.le_trans (Nat.succ_le_succ n.zero_le) hd)
    obtain ⟨d', rfl⟩ := Nat.exists_eq_add_of_le' (Nat.le_trans (Nat.succ_le_succ n.zero_le) hd')
    rw [hsucc, hsucc]
    exact hF inferInstance (ih (Nat.le_of_succ_le_succ hd) (Nat.le_of_succ_le_succ hd'))

/-- Larger bounds than the length of the input make no difference. -/
theorem Guarded.agreeBelow_limit (hF : Guarded F) (hsucc : ∀ d, approx (d + 1) = F (approx d))
    (hq : ∀ s, q s = approx (s.length + 1) s) {d : Nat} (hd : n ≤ d) :
    AgreeBelow n (approx d) q := fun s hs =>
  (hF.agreeBelow hsucc (Nat.lt_of_lt_of_le hs hd) (Nat.le_refl _) s (Nat.lt_succ_self _)).trans
    (hq s).symm

/-- With the length of the input as the bound, the approximations are the solution. -/
theorem Guarded.eq_iff (hF : Guarded F) (hsucc : ∀ d, approx (d + 1) = F (approx d))
    (hq : ∀ s, q s = approx (s.length + 1) s) (p : Parser α) : p = F p ↔ p = q := by
  have hadvances : q.Advances := ⟨fun s => hq s ▸ Advances.suffix s⟩
  have hfixed : q = F q := by
    funext s
    rw [hq, hsucc]
    have hlimit := hF.agreeBelow_limit hsucc hq (Nat.le_refl s.length)
    exact hF hadvances hlimit s (Nat.lt_succ_self _)
  refine ⟨fun hp => ?_, fun h => h ▸ hfixed⟩
  have hsolutions (n : Nat) : AgreeBelow n p q := by
    induction n with
    | zero => exact fun _ hs => absurd hs (Nat.not_lt_zero _)
    | succ n ih =>
      rw [hp, hfixed]
      exact hF hadvances ih
  exact funext fun s => hsolutions (s.length + 1) s (Nat.lt_succ_self _)

end

/-! ## Loops -/

section

variable {step step' : Parser (List α × Bool)}

/-- One round of a loop, and what reads the rest if it goes on. -/
def round (step : Parser (List α × Bool)) (more : Parser (List α)) : Parser (List α) := do
  let (items, goesOn) ← step
  if goesOn then return items ++ (← more) else return items

theorem gather_eq_round (step : Parser (List α × Bool)) (n : Nat) :
    gather step (n + 1) = round step (gather step n) := rfl

theorem advances_gather (h : step.Advances) (n : Nat) : (gather step n).Advances := by
  induction n with
  | zero => exact inferInstanceAs refuse.Advances
  | succ n ih =>
    refine .bind fun r => ?_
    dsimp only
    split <;> infer_instance

theorem Progresses.guarded (h : Progresses step) : Guarded (round step) := by
  intro n p q _ hpq s hs
  change Parser.bind step _ s = Parser.bind step _ s
  rw [Parser.bind, Parser.bind]
  cases hstep : step s with
  | accepted r rest =>
    obtain ⟨items, goesOn⟩ := r
    cases goesOn with
    | false => rfl
    | true =>
      have hlt : rest.length < n := Nat.lt_of_lt_of_le (h hstep) (Nat.le_of_lt_succ hs)
      exact (hpq.map (items ++ ·)) rest hlt
  | refused | aborted => rfl

/-- A loop whose rounds progress is what its equation says, with no bound on the rounds. -/
theorem Progresses.eq_repeated_iff (h : Progresses step) (hadvances : step.Advances)
    (p : Parser (List α)) : p = round step p ↔ p = repeated step :=
  have := advances_gather hadvances
  h.guarded.eq_iff (gather_eq_round step) (fun _ => rfl) p

theorem AgreeBelow.repeated (h : AgreeBelow n step step') (hadvances : step'.Advances) :
    AgreeBelow n (repeated step) (repeated step') := by
  have rounds (m : Nat) : AgreeBelow n (gather step m) (gather step' m) := by
    induction m with
    | zero => exact refl n _
    | succ m ih =>
      refine h.seq hadvances fun r => ?_
      dsimp only
      split
      · exact ih.map (r.1 ++ ·)
      · exact refl n _
  exact fun s hs => rounds (s.length + 1) s hs

end

end LineBasic.Parser

namespace LineBasic.Grammar

open LineBasic.Parser

/-- The loops of the grammar need no bound on their rounds. -/
theorem LoopStep.eq_repeated_iff {α : Type} {step : Parser (List α × Bool)} (h : LoopStep step)
    (p : Parser (List α)) : p = round step p ↔ p = repeated step :=
  h.progresses.eq_repeated_iff h.advances p

/-! ## Expressions -/

section

variable {n : Nat} {inner inner' operand operand' : Parser (Expr Float)} [inner'.Advances]
  [operand'.Advances]

theorem agreeBelow_separated1 (sign : String) (h : AgreeBelow n inner inner') :
    AgreeBelow n (separated1 (symbol sign) inner) (separated1 (symbol sign) inner') := by
  have hstep : AgreeBelow n (furtherStep (symbol sign) inner) (furtherStep (symbol sign) inner') :=
    (AgreeBelow.bind fun _ => h).optional.seq inferInstance fun _ => .refl n _
  have hrest : (repeated (furtherStep (symbol sign) inner')).Advances := .repeated inferInstance
  exact h.seq inferInstance fun _ => (hstep.repeated inferInstance).seq hrest fun _ => .refl n _

theorem agreeBelow_arguments (h : AgreeBelow n inner inner') :
    AgreeBelow (n + 1) (arguments inner) (arguments inner') := by
  have := consumes_symbol (w := "(") (by decide)
  exact .behind fun _ => (agreeBelow_separated1 "," h).seq inferInstance fun _ => .refl n _

theorem agreeBelow_subscripts? (h : AgreeBelow n inner inner') :
    AgreeBelow (n + 1) (subscripts? inner) (subscripts? inner') := by
  refine .bind fun rest => ?_
  split
  · exact (agreeBelow_arguments h).seq inferInstance fun _ => .refl _ _
  · exact .refl _ _

theorem agreeBelow_atom (h : AgreeBelow n inner inner') :
    AgreeBelow (n + 1) (atom inner) (atom inner') := by
  have := consumes_symbol (w := "(") (by decide)
  have hoptional := (agreeBelow_arguments h).optional
  refine .firstOf (.cons (.refl _ _) (.cons (.refl _ _) (.cons ?_ (.cons ?_ (.cons ?_ .nil)))))
  · exact .behind fun _ => h.seq inferInstance fun _ => .refl n _
  · exact .bind fun _ => hoptional.seq inferInstance fun _ => .refl _ _
  · refine .bind fun found => ?_
    cases found with
    | some f => exact hoptional.seq inferInstance fun _ => .refl _ _
    | none =>
      exact .bind fun _ => (agreeBelow_subscripts? h).seq inferInstance fun _ => .refl _ _

theorem agreeBelow_leftGrouped {operator : Parser BinaryOp} [operator.Advances]
    (h : AgreeBelow n operand operand') :
    AgreeBelow n (leftGrouped operator operand) (leftGrouped operator operand') := by
  have hstep : AgreeBelow n (joinStep operator operand) (joinStep operator operand') := by
    refine .bind fun found => ?_
    cases found with
    | some op => exact h.seq inferInstance fun _ => .refl n _
    | none => exact .refl n _
  have hrest : (repeated (joinStep operator operand')).Advances := .repeated inferInstance
  exact h.seq inferInstance fun _ => (hstep.repeated inferInstance).seq hrest fun _ => .refl n _

theorem agreeBelow_powerExpr (h : AgreeBelow n inner inner') :
    AgreeBelow (n + 1) (powerExpr inner) (powerExpr inner') := by
  have hatom := agreeBelow_atom h
  have hexponent : AgreeBelow (n + 1) (exponentExpr inner) (exponentExpr inner') :=
    .bind fun _ => hatom.seq inferInstance fun _ => .refl _ _
  have hstep : AgreeBelow (n + 1) (powerStep inner) (powerStep inner') := by
    refine .bind fun found => ?_
    cases found with
    | some _ => exact hexponent.seq inferInstance fun _ => .refl _ _
    | none => exact .refl _ _
  have hrest : (repeated (powerStep inner')).Advances := .repeated inferInstance
  exact hatom.seq inferInstance fun _ => (hstep.repeated inferInstance).seq hrest fun _ => .refl _ _

theorem guarded_impExpr : Guarded impExpr := by
  intro n inner inner' _ h
  have hnegation : AgreeBelow (n + 1) (negationExpr inner) (negationExpr inner') := by
    have hsigns : (repeated (markStep (symbol "-" <|> symbol "+") id)).Advances :=
      .repeated inferInstance
    rw [negationExpr_eq, negationExpr_eq]
    exact .bind fun _ => (agreeBelow_powerExpr h).map _
  have hrelational : AgreeBelow (n + 1) (relationalExpr inner) (relationalExpr inner') := by
    unfold relationalExpr additiveExpr modExpr intDivExpr multiplicativeExpr
    exact agreeBelow_leftGrouped <| agreeBelow_leftGrouped <| agreeBelow_leftGrouped <|
      agreeBelow_leftGrouped <| agreeBelow_leftGrouped hnegation
  have hnot : AgreeBelow (n + 1) (notExpr inner) (notExpr inner') :=
    .bind fun _ => hrelational.map _
  unfold impExpr eqvExpr xorExpr orExpr andExpr
  exact agreeBelow_leftGrouped <| agreeBelow_leftGrouped <| agreeBelow_leftGrouped <|
    agreeBelow_leftGrouped <| agreeBelow_leftGrouped hnot

/-- The nesting of parentheses needs no bound. -/
theorem eq_expression_iff (p : Parser (Expr Float)) : p = impExpr p ↔ p = expression :=
  guarded_impExpr.eq_iff (fun _ => rfl) (fun _ => rfl) p

end

/-! ## Statements -/

section

variable {n : Nat} {inner inner' : Parser (List Statement)}

theorem agreeBelow_arm (h : AgreeBelow n inner inner') : AgreeBelow n (arm inner) (arm inner') := by
  intro s hs
  have hblock := h.map Arm.block s hs
  rw [arm, arm]
  split
  · split
    · rfl
    · exact hblock
  · exact hblock

variable [inner'.Advances]

theorem agreeBelow_conditionalForm (h : AgreeBelow n inner inner') (place : Place) :
    AgreeBelow (n + 1) (conditionalForm inner place) (conditionalForm inner' place) := by
  have := consumes_keyword (w := "IF") (by decide)
  have harm : AgreeBelow n (thenArm inner) (thenArm inner') :=
    .orElse (.bind fun _ => agreeBelow_arm h) (.refl n _)
  have helse := (AgreeBelow.bind (p := keyword "ELSE") fun _ => agreeBelow_arm h).optional
  have hthen : (thenArm inner').Advances := by unfold thenArm; infer_instance
  exact .behind fun _ => .bind fun _ => harm.seq hthen fun _ =>
    helse.seq inferInstance fun _ => .refl n _

theorem agreeBelow_statementWith (h : AgreeBelow n inner inner') (size number : Nat) :
    AgreeBelow (n + 1) (statementWith inner size number) (statementWith inner' size number) := by
  refine .bind fun _ => .bind fun rest => .firstOf (.cons (.refl _ _) (.cons (.refl _ _) ?_))
  exact .cons (agreeBelow_conditionalForm h _) (List.forall₂_same.2 fun _ _ => .refl _ _)

theorem guarded_statementsWith (size number : Nat) :
    Guarded fun inner => statementsWith inner size number := by
  intro n inner inner' _ h
  have hstep : AgreeBelow (n + 1) (statementsStep inner size number)
      (statementsStep inner' size number) := by
    refine .bind fun _ => .bind fun rest => ?_
    split
    · exact .refl _ _
    · exact .refl _ _
    · split
      · exact .refl _ _
      · exact (agreeBelow_statementWith h size number).seq inferInstance fun _ => .refl _ _
  exact hstep.repeated inferInstance

/-- The nesting of `IF` statements needs no bound. -/
theorem eq_statements_iff (size number : Nat) (p : Parser (List Statement)) :
    p = statementsWith p size number ↔ p = statements size number :=
  (guarded_statementsWith size number).eq_iff (fun _ => rfl) (fun _ => rfl) p

/-- A statement whose arms are read without a bound on their nesting. -/
theorem statement_eq (size number : Nat) :
    statement size number = statementWith (statements size number) size number := by
  funext s
  have hlimit := (guarded_statementsWith size number).agreeBelow_limit (fun _ => rfl)
    (fun _ => rfl : ∀ s, statements size number s = _) (Nat.le_succ s.length)
  exact agreeBelow_statementWith hlimit size number s (Nat.lt_succ_self _)

end

end LineBasic.Grammar
