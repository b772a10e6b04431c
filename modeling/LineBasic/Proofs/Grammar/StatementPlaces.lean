import LineBasic.Proofs.Grammar.PhysicalLines
import LineBasic.Proofs.Grammar.Recursion

/-!
# Places of statements

Where a program line is accepted, its statements, those in the arms of `IF` statements included,
stand in the text in the order in which they are walked over, and each of them is read again from
its column on (`Grammar.programLine_exact`). The statements that are read between two points of a
line stand between these points (`Grammar.StandBetween`); this is kept by every round of the loop
over the statements, and holds of the arms since these are shorter.
-/

namespace LineBasic

theorem Text.byteSize_le_of_suffix {s t : List Char} (h : s <:+ t) : byteSize s ≤ byteSize t := by
  obtain ⟨front, rfl⟩ := h
  rw [byteSize_append]
  exact Nat.le_add_left _ _

namespace Parser

variable {α : Type} {s rest : List Char} {a : α}

/-- What is accepted takes at least one byte. -/
theorem Consumes.byteSize_lt {p : Parser α} [p.Advances] [p.Consumes]
    (h : p s = .accepted a rest) : Text.byteSize rest < Text.byteSize s := by
  obtain ⟨front, rfl⟩ := Advances.suffix_of_accepted h
  have hlt := Consumes.shorter h
  cases front with
  | nil => exact absurd hlt (Nat.lt_irrefl _)
  | cons c front =>
    have hpos := c.utf8Size_pos
    rw [List.cons_append, Text.byteSize_cons, Text.byteSize_append]
    omega

theorem exists_of_firstOf {parsers : List (Parser α)} (h : firstOf parsers s = .accepted a rest) :
    ∃ p ∈ parsers, p s = .accepted a rest := by
  induction parsers with
  | nil => cases h
  | cons p more ih =>
    cases more with
    | nil => exact ⟨p, List.mem_cons_self, h⟩
    | cons q more =>
      rcases of_orElse h with hp | hmore
      · exact ⟨p, List.mem_cons_self, hp⟩
      · obtain ⟨r, hr, haccepted⟩ := ih hmore
        exact ⟨r, List.mem_cons_of_mem _ hr, haccepted⟩

end Parser

namespace Grammar

open LineBasic.Parser

variable {size number depth : Nat} {s t rest : List Char} {x : Statement}
  {xs ys : List Statement}

/-! ## Statements between two points of a line -/

/-- The statements stand in a line of `size` bytes between the point before `s` and the point before
`rest`, one after the other, and each is read from its column on. -/
structure StandBetween (size number : Nat) (s rest : List Char) (xs : List Statement) : Prop where
  read : ∀ x ∈ xs, ∃ after, after <:+ s ∧ x.column + Text.byteSize after = size + 1 ∧
    ∃ rest, statement size number after = .accepted x rest
  /-- There is at least one byte of the statement before `rest`. -/
  column_le : ∀ x ∈ xs, x.column + Text.byteSize rest ≤ size
  increasing : xs.Pairwise fun x y => x.column < y.column

namespace StandBetween

theorem nil (s rest : List Char) : StandBetween size number s rest [] := ⟨nofun, nofun, .nil⟩

theorem mono (h : StandBetween size number s rest xs) {s' rest' : List Char} (hs : s <:+ s')
    (hrest : rest' <:+ rest) : StandBetween size number s' rest' xs where
  read x hx := by
    obtain ⟨after, hafter, hread⟩ := h.read x hx
    exact ⟨after, hafter.trans hs, hread⟩
  column_le x hx :=
    Nat.le_trans (Nat.add_le_add_left (Text.byteSize_le_of_suffix hrest) _) (h.column_le x hx)
  increasing := h.increasing

theorem append (h : StandBetween size number s t xs) (h' : StandBetween size number t rest ys)
    (ht : t <:+ s) (hrest : rest <:+ t) : StandBetween size number s rest (xs ++ ys) where
  read := List.forall_mem_append.2 ⟨h.read, (h'.mono ht (List.suffix_refl _)).read⟩
  column_le := by
    have hbefore := h.mono (List.suffix_refl _) hrest
    exact List.forall_mem_append.2 ⟨hbefore.column_le, h'.column_le⟩
  increasing := by
    refine List.pairwise_append.2 ⟨h.increasing, h'.increasing, fun x hx y hy => ?_⟩
    obtain ⟨after, hafter, hcolumn, -⟩ := h'.read y hy
    have hle := Text.byteSize_le_of_suffix hafter
    have hbefore := h.column_le x hx
    omega

/-- A statement that begins here, and those inside it behind its first word. -/
theorem cons (hread : statement size number s = .accepted x rest)
    (hcolumn : x.column + Text.byteSize s = size + 1) (h : StandBetween size number t rest xs)
    (ht : t <:+ s) (hlt : Text.byteSize t < Text.byteSize s)
    (hrest : Text.byteSize rest < Text.byteSize s) : StandBetween size number s rest (x :: xs) where
  read := List.forall_mem_cons.2
    ⟨⟨s, List.suffix_refl s, hcolumn, rest, hread⟩, (h.mono ht (List.suffix_refl _)).read⟩
  column_le := List.forall_mem_cons.2 ⟨by omega, h.column_le⟩
  increasing := by
    refine List.pairwise_cons.2 ⟨fun y hy => ?_, h.increasing⟩
    obtain ⟨after, hafter, hcolumn', -⟩ := h.read y hy
    have hle := Text.byteSize_le_of_suffix hafter
    omega

end StandBetween

/-! ## Arms and statements -/

section

variable {inner : Parser (List Statement)}

/-- The statements that a parser accepts at `s`, with those inside them, stand behind `s`. -/
def StandFrom (size number depth : Nat) (inner : Parser (List Statement)) (s : List Char) : Prop :=
  ∀ xs rest, inner s = .accepted xs rest →
    StandBetween size number s rest ((occurrencesOfList depth xs).map Prod.fst)

theorem standBetween_arm {a : Arm} (hinner : StandFrom size number depth inner s)
    (h : arm inner s = .accepted a rest) :
    StandBetween size number s rest ((a.occurrences depth).map Prod.fst) := by
  have hblock (h : (Arm.block <$> inner) s = .accepted a rest) :
      StandBetween size number s rest ((a.occurrences depth).map Prod.fst) := by
    obtain ⟨xs, t, hxs, heq⟩ := exists_of_bind h
    obtain ⟨rfl, rfl⟩ := Outcome.accepted.inj heq
    exact hinner xs t hxs
  rw [arm] at h
  split at h
  · split at h
    · obtain ⟨rfl, rfl⟩ := Outcome.accepted.inj h
      exact .nil _ _
    · exact hblock h
  · exact hblock h

/-- An arm behind its keyword. -/
theorem standBetween_keyword_arm {a : Arm} {w : String}
    (hinner : ∀ t, t <:+ s → StandFrom size number depth inner t)
    (h : (keyword w >>= fun _ => arm inner) s = .accepted a rest) :
    StandBetween size number s rest ((a.occurrences depth).map Prod.fst) := by
  obtain ⟨_, t, hkeyword, harm⟩ := exists_of_bind h
  have ht := Advances.suffix_of_accepted hkeyword
  exact (standBetween_arm (hinner t ht) harm).mono ht (List.suffix_refl _)

theorem standBetween_thenArm {a : Arm}
    (hinner : ∀ t, t <:+ s → StandFrom size number depth inner t)
    (h : thenArm inner s = .accepted a rest) :
    StandBetween size number s rest ((a.occurrences depth).map Prod.fst) := by
  change Parser.orElse _ _ s = _ at h
  rw [Parser.orElse] at h
  split at h
  · obtain ⟨_, t, -, hgoto⟩ := exists_of_bind h
    obtain ⟨n, u, -, heq⟩ := exists_of_bind hgoto
    obtain ⟨rfl, rfl⟩ := Outcome.accepted.inj heq
    exact .nil _ _
  · exact standBetween_keyword_arm hinner h

variable [inner.Advances]

/-- The statements in the arms of an `IF` stand behind the word `IF`. -/
theorem exists_of_conditionalForm {place : Place}
    (hinner : ∀ t, t <:+ s → t.length < s.length → StandFrom size number (depth + 1) inner t)
    (h : conditionalForm inner place s = .accepted x rest) :
    ∃ t xs, t <:+ s ∧ Text.byteSize t < Text.byteSize s ∧ StandBetween size number t rest xs ∧
      (x.occurrences depth).map Prod.fst = x :: xs ∧ x.place = place := by
  have := consumes_keyword (w := "IF") (by decide)
  have hthen : (thenArm inner).Advances := by unfold thenArm; infer_instance
  obtain ⟨_, t, hif, h⟩ := exists_of_bind h
  obtain ⟨condition, u, hcondition, h⟩ := exists_of_bind h
  obtain ⟨onTrue, v, htrue, h⟩ := exists_of_bind h
  obtain ⟨onFalse, w, hfalse, heq⟩ := exists_of_bind h
  obtain ⟨rfl, rfl⟩ := Outcome.accepted.inj heq
  have hu : u <:+ t := Advances.suffix_of_accepted hcondition
  have hv : v <:+ u := Advances.suffix_of_accepted htrue
  have harms (u' : List Char) (hu' : u' <:+ t) : StandFrom size number (depth + 1) inner u' :=
    hinner u' (hu'.trans (Advances.suffix_of_accepted hif))
      (Nat.lt_of_le_of_lt hu'.length_le (Consumes.shorter hif))
  have hfirst := standBetween_thenArm (fun u' hu' => harms u' (hu'.trans hu)) htrue
  have htaken := hfirst.mono hu (List.suffix_refl v)
  suffices hinside : ∃ xs, StandBetween size number t w xs ∧
      ((Statement.conditional place condition onTrue onFalse).occurrences depth).map Prod.fst =
        .conditional place condition onTrue onFalse :: xs from by
    obtain ⟨xs, hxs, heq⟩ := hinside
    exact ⟨t, xs, Advances.suffix_of_accepted hif, Consumes.byteSize_lt hif, hxs, heq, rfl⟩
  rcases of_optional hfalse with ⟨a, rfl, ha⟩ | ⟨rfl, rfl, -⟩
  · have hsecond := standBetween_keyword_arm
      (fun u' hu' => harms u' (hu'.trans (hv.trans hu))) ha
    refine ⟨_, htaken.append hsecond (hv.trans hu) (Advances.suffix_of_accepted ha), ?_⟩
    rw [Statement.occurrences, List.map_cons, List.map_append]
  · exact ⟨_, htaken, rfl⟩

end

/-- The forms of a statement are tried behind the blanks before it. -/
theorem statementWith_append {inner : Parser (List Statement)} {lead : List Char}
    (hlead : IsBlank lead) (hs : StartsDark s) :
    statementWith inner size number (lead ++ s) =
      let place : Place := ⟨number, size - Text.byteSize s + 1⟩
      firstOf ([Statement.command place <$> remarkForm, Statement.command place <$> printForm,
        conditionalForm inner place] ++
          commandForms.map fun form => Statement.command place <$> form) s :=
  after_blanks hlead hs

/-- A statement and those in its arms, where the ones that stand behind a first word are known. -/
theorem standBetween_statement (hs : Text.byteSize s ≤ size)
    (hinner : ∀ t, t <:+ s → t.length < s.length → ∀ depth,
      StandFrom size number depth (statements size number) t)
    (h : statement size number s = .accepted x rest) :
    StandBetween size number s rest ((x.occurrences depth).map Prod.fst) := by
  obtain ⟨lead, dark, rfl, hlead, hdark, -⟩ := exists_of_blanks s
  have hsuffix : dark <:+ lead ++ dark := List.suffix_append lead dark
  have hsize := Nat.le_trans (Text.byteSize_le_of_suffix hsuffix) hs
  rw [statement_eq, statementWith_append hlead hdark] at h
  have hread : statement size number dark = .accepted x rest := by
    rw [statement_eq]
    exact (statementWith_append isBlank_nil hdark).trans h
  -- blanks before the statement do not belong to it
  refine StandBetween.mono ?_ hsuffix (List.suffix_refl rest)
  have hcommand (form : Parser Command) (_ : form.Advances) (_ : form.Consumes)
      (h : (Statement.command ⟨number, size - Text.byteSize dark + 1⟩ <$> form) dark =
        .accepted x rest) :
      StandBetween size number dark rest ((x.occurrences depth).map Prod.fst) := by
    obtain ⟨c, t, hc, heq⟩ := exists_of_bind h
    obtain ⟨rfl, rfl⟩ := Outcome.accepted.inj heq
    have hlt := Consumes.byteSize_lt hc
    exact .cons hread (by simp only [Statement.column, Statement.place]; omega) (.nil t t)
      (Advances.suffix_of_accepted hc) hlt hlt
  obtain ⟨p, hp, haccepted⟩ := exists_of_firstOf h
  simp only [List.cons_append, List.nil_append, List.mem_cons, List.mem_map] at hp
  rcases hp with rfl | rfl | rfl | ⟨form, hform, rfl⟩
  · exact hcommand remarkForm inferInstance inferInstance haccepted
  · exact hcommand printForm inferInstance inferInstance haccepted
  · obtain ⟨t, xs, ht, hlt, hxs, hoccurrences, hplace⟩ := exists_of_conditionalForm
      (fun t ht hlt => hinner t (ht.trans hsuffix) (Nat.lt_of_lt_of_le hlt hsuffix.length_le) _)
      haccepted
    rw [hoccurrences]
    refine .cons hread ?_ hxs ht hlt (Consumes.byteSize_lt haccepted)
    rw [Statement.column, hplace]
    dsimp only
    omega
  · exact hcommand form (advances_of_mem_commandForms form hform)
      (consumes_of_mem_commandForms form hform) haccepted

/-! ## Lists of statements -/

/-- The loop over statements, without the bounds on its rounds and on the nesting of `IF`. -/
theorem statements_eq_round (size number : Nat) : statements size number =
    round (statementsStep (statements size number) size number) (statements size number) := by
  have hstatements : statements size number =
      repeated (statementsStep (statements size number) size number) :=
    (eq_statements_iff size number _).2 rfl
  exact ((LoopStep.statement size number inferInstance).eq_repeated_iff _).2 hstatements

/-- The statement of one round, if there is one. -/
theorem standBetween_statementsStep {goesOn : Bool} (hs : Text.byteSize s ≤ size)
    (hinner : ∀ t, t <:+ s → t.length < s.length → ∀ depth,
      StandFrom size number depth (statements size number) t)
    (h : statementsStep (statements size number) size number s = .accepted (xs, goesOn) rest) :
    StandBetween size number s rest ((occurrencesOfList depth xs).map Prod.fst) := by
  obtain ⟨_, t, hblanks, h⟩ := exists_of_bind h
  obtain ⟨left, _, hleft, h⟩ := exists_of_bind h
  obtain ⟨rfl, rfl⟩ := Outcome.accepted.inj hleft
  have ht := Advances.suffix_of_accepted hblanks
  split at h
  · cases h
    exact .nil _ _
  · obtain ⟨_, u, -, heq⟩ := exists_of_bind h
    cases heq
    exact .nil _ _
  split at h
  · cases h
    exact .nil _ _
  obtain ⟨x, u, hx, h⟩ := exists_of_bind h
  obtain ⟨_, v, hv, h⟩ := exists_of_bind h
  obtain ⟨_, _, hleft, h⟩ := exists_of_bind h
  obtain ⟨rfl, rfl⟩ := Outcome.accepted.inj hleft
  have hfound : xs = [x] ∧ rest = v := by split at h <;> cases h <;> exact ⟨rfl, rfl⟩
  obtain ⟨rfl, rfl⟩ := hfound
  rw [← statement_eq] at hx
  have hsize := Nat.le_trans (Text.byteSize_le_of_suffix ht) hs
  have hstands : StandBetween size number t u ((x.occurrences depth).map Prod.fst) :=
    standBetween_statement hsize
      (fun t' ht' hlt => hinner t' (ht'.trans ht) (Nat.lt_of_lt_of_le hlt ht.length_le)) hx
  rw [occurrencesOfList, occurrencesOfList, List.append_nil]
  exact hstands.mono ht (Advances.suffix_of_accepted hv)

/-- Statements of a line and those in their arms. The arms and the later rounds read less. -/
theorem standFrom_statements (s : List Char) (hs : Text.byteSize s ≤ size) (depth : Nat) :
    StandFrom size number depth (statements size number) s := by
  have shorter (t : List Char) (ht : t <:+ s) (hlt : t.length < s.length) (depth : Nat) :
      StandFrom size number depth (statements size number) t :=
    standFrom_statements t (Nat.le_trans (Text.byteSize_le_of_suffix ht) hs) depth
  intro xs rest h
  rw [statements_eq_round] at h
  obtain ⟨⟨items, goesOn⟩, t, hstep, h⟩ := exists_of_bind h
  have ht := Advances.suffix_of_accepted hstep
  have hitems : StandBetween size number s t ((occurrencesOfList depth items).map Prod.fst) :=
    standBetween_statementsStep hs shorter hstep
  cases goesOn with
  | false =>
    obtain ⟨rfl, rfl⟩ := Outcome.accepted.inj h
    exact hitems
  | true =>
    obtain ⟨others, u, hothers, heq⟩ := exists_of_bind h
    obtain ⟨rfl, rfl⟩ := Outcome.accepted.inj heq
    have hlt := (LoopStep.statement size number inferInstance).progresses hstep
    rw [occurrencesOfList_append, List.map_append]
    exact hitems.append (shorter t ht hlt depth others u hothers) ht
      (Advances.suffix_of_accepted hothers)
termination_by s.length

/-! ## Program lines -/

/-- The parsers that the grammar of a line is made of, and the loops inside them. -/
inductive SubParser : {α : Type} → Parser α → Prop
  | blanks : SubParser blanks
  | word (w : String) : SubParser (word w)
  | keyword (w : String) : SubParser (keyword w)
  | exactly (sign : List Char) : SubParser (exactly sign)
  | symbol (sign : String) : SubParser (symbol sign)
  | spelledName : SubParser spelledName
  | variableName : SubParser variableName
  | functionName : SubParser functionName
  | wholeNumber : SubParser wholeNumber
  | quoted : SubParser quoted
  | mantissa : SubParser mantissa
  | exponentPart : SubParser exponentPart
  | decimal : SubParser decimal
  | hexadecimal : SubParser hexadecimal
  | number : SubParser Grammar.number
  | letter : SubParser letter
  | intrinsicName : SubParser intrinsicName
  | operatorOf (spellings : List (String × BinaryOp)) : SubParser (operatorOf spellings)
  | keywordOf (words : List String) : SubParser (keywordOf words)
  | loop {α : Type} {step : Parser (List α × Bool)} : LoopStep step → SubParser (repeated step)
  | counted {marker : Parser String} : SubParser marker → SubParser (counted marker)
  | separated1 {α : Type} {element : Parser α} : SubParser element →
    SubParser (separated1 (Grammar.symbol ",") element)
  | separated {α : Type} {element : Parser α} : SubParser element →
    SubParser (separated (Grammar.symbol ",") element)
  | arguments {inner : Parser (Expr Float)} : SubParser inner → SubParser (arguments inner)
  | subscripts {inner : Parser (Expr Float)} : SubParser inner → SubParser (subscripts? inner)
  | numberExpr : SubParser numberExpr
  | stringExpr : SubParser stringExpr
  | enclosed {inner : Parser (Expr Float)} : SubParser inner → SubParser (enclosed inner)
  | userCall {inner : Parser (Expr Float)} : SubParser inner → SubParser (userCall inner)
  | namedExpr {inner : Parser (Expr Float)} : SubParser inner → SubParser (namedExpr inner)
  | exponentExpr {inner : Parser (Expr Float)} : SubParser inner → SubParser (exponentExpr inner)
  /-- From `IMP` at 1 up to what operators join. -/
  | level {inner : Parser (Expr Float)} (p : Nat) : SubParser inner → SubParser (level inner p)
  | nested (depth : Nat) : SubParser (nested depth)
  | expression : SubParser expression
  | target : SubParser target
  | channel : SubParser channel
  | prompt : SubParser prompt
  | nameList : SubParser nameList
  | form {form : Parser Command} : form ∈ remarkForm :: printForm :: commandForms → SubParser form
  | arm {inner : Parser (List Statement)} : SubParser inner → SubParser (arm inner)
  | thenArm {inner : Parser (List Statement)} : SubParser inner → SubParser (thenArm inner)
  | conditionalForm {inner : Parser (List Statement)} (place : Place) : SubParser inner →
    SubParser (conditionalForm inner place)
  | statementWith {inner : Parser (List Statement)} (size number : Nat) : SubParser inner →
    SubParser (statementWith inner size number)
  | statementsWith {inner : Parser (List Statement)} (size number : Nat) : SubParser inner →
    SubParser (statementsWith inner size number)
  | statementsNested (size number depth : Nat) : SubParser (statementsNested size number depth)
  | statements (size number : Nat) : SubParser (statements size number)
  | statement (size number : Nat) : SubParser (statement size number)
  | programLine (sourceLine : Nat) : SubParser (programLine sourceLine)

theorem SubParser.advances {α : Type} {p : Parser α} (h : SubParser p) : p.Advances := by
  induction h with
  | loop h => exact .repeated h.advances
  | level p _ ih =>
    unfold Grammar.level eqvExpr xorExpr orExpr andExpr additiveExpr modExpr intDivExpr
      multiplicativeExpr
    split <;> infer_instance
  | form h =>
    rcases List.mem_cons.1 h with rfl | h
    · infer_instance
    rcases List.mem_cons.1 h with rfl | h
    · infer_instance
    exact advances_of_mem_commandForms _ h
  | letter => unfold Grammar.letter; infer_instance
  | numberExpr => unfold Grammar.numberExpr; infer_instance
  | stringExpr => unfold Grammar.stringExpr; infer_instance
  | enclosed => unfold Grammar.enclosed; infer_instance
  | userCall => unfold Grammar.userCall; infer_instance
  | thenArm => unfold Grammar.thenArm; infer_instance
  | statement => rw [statement_eq]; infer_instance
  | _ => infer_instance

/-- Reading a line ends, takes a front part of the line, and names the places of all statements
exactly. The loops, the nesting of parentheses and the nesting of `IF` are given by their equations
alone; whatever is accepted leaves an end of the input; and the statements of a line that is
accepted stand in it in ascending order, each where it is read again from its column on. -/
theorem programLine_exact (sourceLine : Nat) (text : List Char) :
    ((∀ {α : Type} (step : Parser (List α × Bool)), LoopStep step →
        Progresses step ∧ ∀ p, p = round step p ↔ p = repeated step) ∧
      (∀ p, p = impExpr p ↔ p = expression) ∧
      ∀ size number, (∀ p, p = statementsWith p size number ↔ p = statements size number) ∧
        statement size number = statementWith (statements size number) size number) ∧
    (∀ {α : Type} (p : Parser α), SubParser p → ∀ s a rest, p s = .accepted a rest →
      rest <:+ s ∧ (s <:+ text → Text.byteSize rest ≤ Text.byteSize text)) ∧
    ∀ line rest, programLine sourceLine text = .accepted line rest →
      let found := (occurrencesOfList 0 line.statements).map Prod.fst
      rest = [] ∧ found.Pairwise (fun x y => x.column < y.column) ∧
        ∀ x ∈ found, 1 ≤ x.column ∧ x.column ≤ Text.byteSize text ∧
          ∃ before after, text = before ++ after ∧ Text.byteSize before + 1 = x.column ∧
            ∃ rest, statement (Text.byteSize text) line.number after = .accepted x rest := by
  have unbounded (size number : Nat) :=
    And.intro (eq_statements_iff size number) (statement_eq size number)
  refine ⟨⟨fun step h => ⟨h.progresses, h.eq_repeated_iff⟩, eq_expression_iff, unbounded⟩,
    fun p hp s a rest h => ?_, fun line rest h => ?_⟩
  · have := hp.advances
    have hrest := Advances.suffix_of_accepted h
    exact ⟨hrest, fun hs => Text.byteSize_le_of_suffix (hrest.trans hs)⟩
  · obtain ⟨rfl, -, after, left, hnumber, hstatements⟩ := of_programLine h
    have hafter := Advances.suffix_of_accepted hnumber
    have hsize := Text.byteSize_le_of_suffix hafter
    have hstand := standFrom_statements after hsize 0 _ _ hstatements
    refine ⟨rfl, hstand.increasing, fun x hx => ?_⟩
    obtain ⟨behind, hbehind, hcolumn, hread⟩ := hstand.read x hx
    have hle := hstand.column_le x hx
    obtain ⟨before, hbefore⟩ := hbehind.trans hafter
    have hbytes : Text.byteSize text = Text.byteSize before + Text.byteSize behind := by
      rw [← hbefore, Text.byteSize_append]
    exact ⟨by omega, by omega, before, behind, hbefore.symm, by omega, hread⟩

/-- Statements in both arms of an `IF`, one of them behind a colon. -/
theorem programLine_exact_arms :
    let text := "10 IF A THEN B = 2 ELSE PRINT A: STOP".toList
    ∃ line, programLine 1 text = .accepted line [] ∧
      let found := (occurrencesOfList 0 line.statements).map Prod.fst
      found.map Statement.column = [4, 14, 25, 34] ∧
        ∀ x ∈ found, ∃ before after, text = before ++ after ∧
          Text.byteSize before + 1 = x.column ∧
            ∃ rest, statement 37 10 after = .accepted x rest := by
  intro text
  have read : acceptsSuch (programLine 1) (fun line => line.number == 10 &&
      ((occurrencesOfList 0 line.statements).map Prod.fst).map Statement.column == [4, 14, 25, 34])
      text = true := by
    decide +kernel
  obtain ⟨line, rest, haccepted, htest⟩ := exists_of_acceptsSuch read
  obtain ⟨hnumber, hcolumns⟩ := (Bool.and_eq_true ..).mp htest
  obtain ⟨-, -, hexact⟩ := programLine_exact 1 text
  obtain ⟨rfl, -, hplaces⟩ := hexact line rest haccepted
  refine ⟨line, haccepted, eq_of_beq hcolumns, fun x hx => ?_⟩
  obtain ⟨-, -, before, after, htext, hcolumn, hread⟩ := hplaces x hx
  rw [eq_of_beq hnumber] at hread
  exact ⟨before, after, htext, hcolumn, hread⟩

end Grammar
end LineBasic
