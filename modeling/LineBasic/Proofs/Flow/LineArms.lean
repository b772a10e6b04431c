import LineBasic.Grammar.Program
import LineBasic.Proofs.Flow.SpelledOut
import LineBasic.Proofs.Grammar.ArmTexts
import LineBasic.Proofs.Grammar.PhysicalLines

/-!
# A line number as an arm is a `GOTO`

Two programs that differ only in arms that are a line number in the one and a `GOTO` in the other
have the same statements otherwise, of which the same ones are reachable, and the same reads before
assignment are found (`Program.flowsAlike_of_spelledAlike`). Where a line number is all of an arm up
to `ELSE` or the end of the line, the text with a `GOTO` before it is read as such a program
(`lineArm_goto`).

That goes for no number that a colon or a quotation mark follows: what follows belongs to the arm of
a `GOTO`, but not to an arm that is a number. And a `GOTO` further on may make an `ON` of what was an
assignment to `ON5` (`unassignedScalars_ne_spelledOut`).
-/

namespace LineBasic

/-- The programs differ only in which arms are line numbers and which are a `GOTO`, and in
columns. -/
def Program.SpelledAlike (p q : Program) : Prop := p.spelledOut = q.spelledOut

/-- The statement of one program has its counterpart in the other one, or it is the `GOTO` for an
arm that is a line number there. -/
def Program.Aligned (p q : Program) : Option Placed × Option Placed → Prop
  | (some o, some o') => o'.statement.spelledOut = o.statement.spelledOut ∧
      (Graph.build q).isReachable o'.id = (Graph.build p).isReachable o.id
  | (some o, none) => ∃ owner ∈ q.placed, o.statement.spelledOut.SpellsArmOf owner.statement
  | (none, some o') => ∃ owner ∈ p.placed, o'.statement.spelledOut.SpellsArmOf owner.statement
  | (none, none) => True

/-- The programs do the same, as far as reachability and assignment go. -/
structure Program.FlowsAlike (p q : Program) : Prop where
  /-- The statements of both programs stand in the same order. -/
  occurrences : ∃ alignment : List (Option Placed × Option Placed),
    alignment.filterMap Prod.fst = p.placed ∧ alignment.filterMap Prod.snd = q.placed ∧
      ∀ r ∈ alignment, p.Aligned q r
  uninitialized :
    findUninitialized (Graph.build q) ((Graph.build q).effects (SymbolTable.build q).table) =
      findUninitialized (Graph.build p) ((Graph.build p).effects (SymbolTable.build p).table)

/-- Two lists with the same second components are gone through together. -/
theorem exists_alignment {pairs pairs' : List (Option Placed × Placed)}
    (h : pairs.map Prod.snd = pairs'.map Prod.snd) :
    ∃ alignment : List (Option Placed × Option Placed),
      alignment.filterMap Prod.fst = pairs.filterMap Prod.fst ∧
      alignment.filterMap Prod.snd = pairs'.filterMap Prod.fst ∧
      ∀ r ∈ alignment, ∃ x, (r.1, x) ∈ pairs ∧ (r.2, x) ∈ pairs' := by
  induction pairs generalizing pairs' with
  | nil =>
    obtain rfl := List.map_eq_nil_iff.1 h.symm
    exact ⟨[], rfl, rfl, nofun⟩
  | cons r rest ih =>
    rcases pairs' with _ | ⟨r', rest'⟩
    · cases h
    obtain ⟨hx, hrest⟩ := List.cons.inj h
    obtain ⟨a, x⟩ := r
    obtain ⟨b, _⟩ := r'
    obtain rfl : x = _ := hx
    obtain ⟨alignment, hfst, hsnd, hmem⟩ := ih hrest
    refine ⟨(a, b) :: alignment, ?_, ?_, ?_⟩
    · rw [List.filterMap_cons, List.filterMap_cons, hfst]
    · rw [List.filterMap_cons, List.filterMap_cons, hsnd]
    · rintro r hr
      rcases List.mem_cons.1 hr with rfl | hr
      · exact ⟨x, List.mem_cons_self, List.mem_cons_self⟩
      · obtain ⟨y, hy, hy'⟩ := hmem r hr
        exact ⟨y, List.mem_cons_of_mem _ hy, List.mem_cons_of_mem _ hy'⟩

namespace Program

variable {p q : Program}

/-- What stands for a statement is reachable if and only if the statement is. -/
theorem isReachable_of_mem_pairs {o x : Placed} (h : (some o, x) ∈ p.pairs) :
    (Graph.build p.spelledOut).isReachable x.id = (Graph.build p).isReachable o.id := by
  rw [(spells_of_mem_pairs h).id_eq]
  exact p.expansion_spelledOut.isReachable_head o.id

theorem aligned_of_mem_pairs (h : p.SpelledAlike q) {x : Placed} :
    {a b : Option Placed} → (a, x) ∈ p.pairs → (b, x) ∈ q.pairs → p.Aligned q (a, b)
  | some o, some o', hp, hq =>
    ⟨(spells_of_mem_pairs hq).statement.symm.trans (spells_of_mem_pairs hp).statement,
      (isReachable_of_mem_pairs hq).symm.trans (h ▸ isReachable_of_mem_pairs hp)⟩
  | some o, none, hp, hq => by
    obtain ⟨-, -, -, owner, howner, hspells⟩ := exists_goto_of_mem_pairs hq
    exact ⟨owner, howner, (spells_of_mem_pairs hp).statement ▸ hspells⟩
  | none, some o', hp, hq => by
    obtain ⟨-, -, -, owner, howner, hspells⟩ := exists_goto_of_mem_pairs hp
    exact ⟨owner, howner, (spells_of_mem_pairs hq).statement ▸ hspells⟩
  | none, none, _, _ => trivial

/-- It makes no difference whether an arm is a line number or a `GOTO`. -/
theorem flowsAlike_of_spelledAlike (h : p.SpelledAlike q) : p.FlowsAlike q where
  occurrences := by
    have hpairs : p.pairs.map Prod.snd = q.pairs.map Prod.snd := by
      rw [map_snd_pairs, map_snd_pairs, h]
    obtain ⟨alignment, hp, hq, hmem⟩ := exists_alignment hpairs
    rw [filterMap_fst_pairs] at hp hq
    refine ⟨alignment, hp, hq, fun r hr => ?_⟩
    obtain ⟨x, hx, hx'⟩ := hmem r hr
    exact aligned_of_mem_pairs h hx hx'
  uninitialized := by
    have htable : SymbolTable.build q = SymbolTable.build p := by
      rw [← SymbolTable.build_spelledOut, ← h, SymbolTable.build_spelledOut]
    rw [htable, ← findUninitialized_spelledOut q, ← h, findUninitialized_spelledOut]

end Program

/-! ## Texts that differ in an arm -/

/-- A line as its program is spelled out. -/
def ProgramLine.spelledOut (l : ProgramLine) : ProgramLine :=
  { l with statements := spelledOutList l.statements }

namespace Program

open LineBasic.Grammar

theorem map_insertLine_spelledOut (l : ProgramLine) (lines : List ProgramLine) :
    (insertLine l lines).map ProgramLine.spelledOut =
      insertLine l.spelledOut (lines.map ProgramLine.spelledOut) := by
  induction lines with
  | nil => rfl
  | cons first rest ih =>
    rw [insertLine, List.map_cons, insertLine]
    change _ = if l.number < first.number then _ else if l.number = first.number then _ else _
    split
    · rfl
    · split
      · rfl
      · rw [List.map_cons, ih]

theorem map_foldl_spelledOut (read lines : List ProgramLine) :
    (read.foldl (fun lines l => insertLine l lines) lines).map ProgramLine.spelledOut =
      (read.map ProgramLine.spelledOut).foldl (fun lines l => insertLine l lines)
        (lines.map ProgramLine.spelledOut) := by
  induction read generalizing lines with
  | nil => rfl
  | cons l read ih => rw [List.foldl_cons, ih, map_insertLine_spelledOut, List.map_cons,
      List.foldl_cons]

/-- The line is blank or accepted. -/
def HasNoFault (sourceLine : Nat) (text : List Char) : Prop :=
  (Text.trim text).isEmpty ∨ (readLine? sourceLine text).isSome

/-- Whether a line has a fault does not depend on the lines before it. -/
theorem lineFault?_eq_none_iff {sourceLine offset : Nat} {text : List Char} :
    lineFault? sourceLine offset text = none ↔ HasNoFault sourceLine text := by
  rw [lineFault?, HasNoFault, readLine?]
  split
  next hblank => exact iff_of_true rfl (.inl hblank)
  next hblank => cases programLine sourceLine text <;> simp [hblank]

theorem faults_eq_nil_iff {texts : List (List Char)} :
    faults texts = [] ↔ ∀ r ∈ texts.zipIdx, HasNoFault (r.2 + 1) r.1 := by
  rw [faults, List.filterMap_eq_nil_iff]
  exact forall₂_congr fun _ _ => lineFault?_eq_none_iff

/-- Where the first line has no fault, the second one has none and is read alike. -/
def ReadAlike (text text' : List Char) : Prop :=
  ∀ k, HasNoFault k text → HasNoFault k text' ∧
    (readLine? k text').map ProgramLine.spelledOut = (readLine? k text).map ProgramLine.spelledOut

theorem ReadAlike.refl (text : List Char) : ReadAlike text text := fun _ h => ⟨h, rfl⟩

section

variable {texts texts' : List (List Char)}

/-- Line by line, no faults and the same program lines. -/
theorem readAlike_lines (h : List.Forall₂ ReadAlike texts texts') {k : Nat}
    (hfaults : ∀ r ∈ texts.zipIdx k, HasNoFault (r.2 + 1) r.1) :
    (∀ r ∈ texts'.zipIdx k, HasNoFault (r.2 + 1) r.1) ∧
      ((texts'.zipIdx k).filterMap fun r => readLine? (r.2 + 1) r.1).map ProgramLine.spelledOut =
        ((texts.zipIdx k).filterMap fun r => readLine? (r.2 + 1) r.1).map
          ProgramLine.spelledOut := by
  induction h generalizing k with
  | nil => exact ⟨hfaults, rfl⟩
  | @cons text text' texts texts' hline _ ih =>
    rw [List.zipIdx_cons, List.forall_mem_cons] at hfaults
    obtain ⟨hhead, hread⟩ := hline (k + 1) hfaults.1
    obtain ⟨hrest, hmore⟩ := ih hfaults.2
    refine ⟨?_, ?_⟩
    · rw [List.zipIdx_cons, List.forall_mem_cons]
      exact ⟨hhead, hrest⟩
    rw [List.zipIdx_cons, List.zipIdx_cons, List.filterMap_cons, List.filterMap_cons]
    cases hnew : readLine? (k + 1) text' with
    | none =>
      rw [hnew, Option.map_none, eq_comm, Option.map_eq_none_iff] at hread
      rw [hread]
      exact hmore
    | some l' =>
      rw [hnew, Option.map_some, eq_comm, Option.map_eq_some_iff] at hread
      obtain ⟨l, hl, heq⟩ := hread
      rw [hl]
      exact List.cons_eq_cons.2 ⟨heq.symm, hmore⟩

/-- Texts whose lines are read alike are programs that differ in arms only. -/
theorem exists_parse_of_alike {source source' : String} {p : Program}
    (hparse : parse source = .ok p)
    (h : List.Forall₂ ReadAlike (Text.lines source.toList) (Text.lines source'.toList)) :
    ∃ q, parse source' = .ok q ∧ p.SpelledAlike q := by
  rw [parse_eq] at hparse ⊢
  split at hparse
  next hempty =>
    obtain ⟨hnone, hread⟩ :=
      readAlike_lines h (faults_eq_nil_iff.1 (List.isEmpty_iff.1 hempty))
    obtain rfl := Except.ok.inj hparse
    rw [faults_eq_nil_iff.2 hnone]
    refine ⟨_, rfl, congrArg Program.mk ((map_foldl_spelledOut _ []).trans ?_)⟩
    refine Eq.trans ?_ (map_foldl_spelledOut _ []).symm
    exact congrArg (·.foldl (fun lines l => insertLine l lines) []) hread.symm
  next => cases hparse

end

end Program

/-- An `IF` in an arm, with a line number for its own arm. -/
def nestedNumber : String :=
  "10 IF A THEN IF B THEN 100 ELSE PRINT A ELSE 200\n100 END\n200 PRINT C\n"

/-- The same program with a `GOTO` in that arm. -/
def nestedGoto : String :=
  "10 IF A THEN IF B THEN GOTO 100 ELSE PRINT A ELSE 200\n100 END\n200 PRINT C\n"

section

open Grammar LineBasic.Parser

theorem readsArm_nestedNumber : ReadsArm
    ("10 IF A THEN IF B THEN".toList ++ " 100 ELSE PRINT A ELSE 200".toList)
    " 100 ELSE PRINT A ELSE 200".toList := by
  let line := " IF A THEN IF B THEN 100 ELSE PRINT A ELSE 200".toList
  let inside := " IF B THEN 100 ELSE PRINT A ELSE 200".toList
  have houter : ArmAt 48 10 line inside :=
    .of_then " A THEN IF B THEN 100 ELSE PRINT A ELSE 200".toList
      " THEN IF B THEN 100 ELSE PRINT A ELSE 200".toList "ELSE 200".toList []
      (by decide +kernel) (by decide +kernel) (by decide +kernel) (by decide +kernel)
      (by decide +kernel)
  have hinner : ArmAt 48 10 inside " 100 ELSE PRINT A ELSE 200".toList :=
    .of_then " B THEN 100 ELSE PRINT A ELSE 200".toList " THEN 100 ELSE PRINT A ELSE 200".toList
      " ELSE PRINT A ELSE 200".toList "ELSE 200".toList
      (by decide +kernel) (by decide +kernel) (by decide +kernel) (by decide +kernel)
      (by decide +kernel)
  have hrest : restOf? (statements 48 10) inside = some "ELSE 200".toList := by decide +kernel
  obtain ⟨_, hblock⟩ := exists_of_restOf? hrest
  have hno : accepts wholeNumber inside = false := by decide +kernel
  refine ⟨10, line, inside, rfl, .within houter (arm_of_block (fun n t hn => ?_) hblock) (.here _),
    hinner⟩
  rw [accepts_of_accepted hn] at hno
  cases hno

end

/-! ## Texts -/

/-- The scalars that may be read unassigned in the program of a text, with their lines. -/
def unassignedScalars (source : String) : Option (List (String × Nat)) :=
  (Program.parse source).toOption.map fun p =>
    (findUninitialized (Graph.build p) ((Graph.build p).effects (SymbolTable.build p).table)).map
      fun u => (u.name, u.line)

/-- The statements of the program of a text, and whether they are reachable. -/
def reachableKeywords (source : String) : Option (List (String × Bool)) :=
  (Program.parse source).toOption.map fun p =>
    p.placed.map fun q => (q.statement.keyword, (Graph.build p).isReachable q.id)

end LineBasic
