import LineBasic.Proofs.Flow.Execution
import LineBasic.Proofs.Symbol.Sweep

/-!
# Extents at run time

The bounds of an array are evaluated with the constants that assignments give in the order of the
text. They are the values of the extents on every run that reaches the `DIM` and on which the
scalars were written in that order (`dimensions_eq_extents`). On a run that takes another order they
may be others (`dimensions_ne_extents`).
-/

namespace LineBasic

/-! ## The sweep, statement by statement -/

namespace Program

variable (p : Program)

/-- The sweep over the declarations before the statement with an index in the text. -/
def sweepBefore (i : Nat) : SymbolSweep :=
  ((p.placed.take i).map fun q => (q.statement, q.depth)).foldl SymbolSweep.statement
    (p.allStatements.foldl SymbolSweep.directive .empty)

/-- The first sweep meets no variables. -/
theorem agrees_sweepBefore_zero : SymbolSweep.Agrees .empty (p.sweepBefore 0) :=
  SymbolSweep.agrees_foldl (fun s statement _ => s.agrees_directive statement) _

variable {p} {i j : Nat} {key : String}

theorem sweepBefore_succ (hi : i < p.placed.length) :
    p.sweepBefore (i + 1) =
      (p.sweepBefore i).statement (p.placed[i].statement, p.placed[i].depth) := by
  rw [sweepBefore, List.take_succ_eq_append_getElem hi, List.map_append, List.foldl_append]
  rfl

/-- What is known of a scalar depends on the last statement before that names it as written. -/
theorem constants_sweepBefore (hi : i ≤ p.placed.length) (hj : j < i)
    (hwrites : key ∈ p.placed[j].statement.writtenScalars)
    (hlast : ∀ k (hk : k < i), j < k → key ∉ p.placed[k].statement.writtenScalars) :
    (p.sweepBefore i).constants[key]? =
      (p.sweepBefore j).assigned? p.placed[j].depth p.placed[j].statement := by
  induction i with
  | zero => exact absurd hj (Nat.not_lt_zero j)
  | succ i ih =>
    have hlt : i < p.placed.length := hi
    have hstep := ((p.sweepBefore i).statement_spec p.placed[i].statement p.placed[i].depth).1 key
    rw [sweepBefore_succ hlt, hstep]
    rcases Nat.lt_succ_iff_lt_or_eq.1 hj with hlater | rfl
    · rw [if_neg (hlast i (Nat.lt_succ_self i) hlater)]
      exact ih (Nat.le_of_lt hlt) hlater hwrites fun k hk => hlast k (Nat.lt_succ_of_lt hk)
    · rw [if_pos hwrites]

/-- The bounds of an array are those of a `DIM` before. -/
theorem exists_dim_of_bounds? (hi : i ≤ p.placed.length) {line : Nat} {dimensions : List Int}
    (h : (p.sweepBefore i).bounds? key = some (line, dimensions)) :
    ∃ (j : Nat) (hj : j < p.placed.length) (place : Place) (arrays : List ArrayDecl),
      p.placed[j].statement = .command place (.dim arrays) ∧ place.line = line ∧
        ∃ array ∈ arrays, array.name.key = key ∧
          SymbolSweep.Extents (p.sweepBefore j) array dimensions := by
  induction i with
  | zero =>
    rw [p.agrees_sweepBefore_zero.bounds] at h
    cases h
  | succ i ih =>
    have hlt : i < p.placed.length := hi
    have hstep := ((p.sweepBefore i).statement_spec p.placed[i].statement p.placed[i].depth).2 key
    rw [← sweepBefore_succ hlt] at hstep
    rcases hstep with hsame | ⟨place, arrays, hdim, array, harray, hkey, found, hfound, hbounds⟩
    · exact ih (Nat.le_of_lt hlt) (hsame ▸ h)
    · obtain ⟨rfl, rfl⟩ := Prod.mk.inj (Option.some.inj (hbounds.symm.trans h))
      exact ⟨i, hlt, place, arrays, hdim, rfl, array, harray, hkey, hfound⟩

/-- The array of a symbol table has the bounds that the sweep over the whole text found. -/
theorem bounds?_of_build {info : ArrayInfo} {line : Nat}
    (h : (SymbolTable.build p).table.arrays[key]? = some info) (hline : info.dimLine = some line) :
    (p.sweepBefore p.placed.length).bounds? key = some (line, info.dimensions) := by
  have hsweep : p.sweepBefore p.placed.length = p.occurrences.foldl SymbolSweep.statement
      (p.allStatements.foldl SymbolSweep.directive .empty) := by
    rw [sweepBefore, List.take_length, occurrences,
      occurrencesOfList_eq 2 Graph.exit 0 p.statements]
    rfl
  rw [hsweep, SymbolSweep.bounds?]
  simp only [SymbolTable.build, Std.ExtTreeMap.getElem?_map] at h
  obtain ⟨found, hfound, rfl⟩ := Option.map_eq_some_iff.1 h
  have hdim : found.dimLine = some line := hline
  rw [hfound]
  simp [hdim, SymbolSweep.layOut, SymbolSweep.dimensionsOf]

end Program

/-! ## Runs that follow the text -/

/--
On the way to a statement that reads the scalar, the last statement that wrote it is the last one
before the reader in the text that names it as written; and if it is an assignment, this holds of
the scalars that it reads, too. The list has the nodes executed so far, the latest first.
-/
inductive WrittenInOrder (p : Program) (t : SymbolTable) : List NodeId → NodeId → String → Prop
  | earlier {past : List NodeId} {id reader : NodeId} {key : String} :
    ¬ WritesAt ((Graph.build p).effects t) id key → WrittenInOrder p t past reader key →
      WrittenInOrder p t (id :: past) reader key
  | last {past : List NodeId} {q : Placed} {reader : NodeId} {key : String} :
    q ∈ p.placed → q.id < reader → key ∈ q.statement.writtenScalars →
      (∀ q' ∈ p.placed, q.id < q'.id → q'.id < reader → key ∉ q'.statement.writtenScalars) →
      (∀ name value, q.statement.command? = some (.assign (.scalar name) value) →
        ∀ read, .scalar read ∈ value.subterms → WrittenInOrder p t past q.id read.key) →
      WrittenInOrder p t (q.id :: past) reader key

section Runs

variable {p : Program} {t : SymbolTable} {start s : MachineState Float}

/-- Only an assignment to its scalar outside all arms makes a number known. -/
theorem exists_assign_of_assigned? {sweep : SymbolSweep} {depth : Nat} {statement : Statement}
    {n : Float} (h : sweep.assigned? depth statement = some n) :
    ∃ place name value, statement = .command place (.assign (.scalar name) value) ∧
      value.evaluate? (fun key => sweep.constants[key]?) = some (.number n) := by
  unfold SymbolSweep.assigned? at h
  split at h
  next place name value =>
    obtain ⟨v, hv, hn⟩ := Option.bind_eq_some_iff.1 (Option.ite_none_right_eq_some.1 h).2
    cases v with
    | number m =>
      obtain rfl : m = n := Option.some.inj hn
      exact ⟨place, name, value, rfl, hv⟩
    | string text => cases hn
  next => cases h

/-- Where the scalars of an expression hold what is known of them, it has the known value. -/
theorem evaluate?_of_known {sweep : SymbolSweep} {e : Expr Float} {v : Value Float}
    {memory : Memory Float} (h : e.evaluate? (fun key => sweep.constants[key]?) = some v)
    (hmemory : ∀ read, .scalar read ∈ e.subterms → ∀ n, sweep.constants[read.key]? = some n →
      memory read.key = .number n) :
    e.evaluate? (fun key => (memory key).number?) = some v := by
  refine Expr.evaluate?_of_agree (fun read hread n hn => ?_) h
  rw [hmemory read hread n hn]
  rfl

/-- Where control is, the values of the extents, rounded, are the bounds. -/
def EvaluateTo (memory : Memory Float) (extents : List (Expr Float)) (bounds : List Int) : Prop :=
  List.Forall₂ (fun e d => ∃ x, e.evaluate? (fun key => (memory key).number?) = some (.number x) ∧
    Arithmetic.nearest? x = some d) extents bounds

/-- A scalar that is known at a statement holds its number on the runs that follow the text. -/
theorem memory_of_writtenInOrder {past : List (MachineState Float)} {nodes : List NodeId}
    {reader : NodeId} {key : String} {n : Float} {i : Nat}
    (h : WrittenInOrder p t nodes reader key) (hnodes : past.map (fun s => s.control.1) = nodes)
    (hrun : History (Executes p t) start (s :: past)) (hreader : reader = i + 2)
    (hi : i ≤ p.placed.length) (hn : (p.sweepBefore i).constants[key]? = some n) :
    s.memory key = .number n := by
  induction h generalizing s past i n with
  | @earlier nodes id reader key hid _ ih =>
    obtain ⟨d, past, rfl, rfl, rfl⟩ := List.map_eq_cons_iff.1 hnodes
    obtain ⟨hpast, hstep⟩ := hrun.of_cons_cons
    rw [hstep.keeps key hid]
    exact ih rfl hpast hreader hi hn
  | @last nodes q reader key hq hlt hwrites hlast _ ih =>
    obtain ⟨d, past, rfl, hid, rfl⟩ := List.map_eq_cons_iff.1 hnodes
    obtain ⟨hpast, hstep⟩ := hrun.of_cons_cons
    obtain ⟨j, hj, rfl⟩ := List.getElem_of_mem hq
    have index (k : Nat) (hk : k < p.placed.length) : p.placed[k].id = k + 2 :=
      p.id_getElem_placed hk
    rw [hreader, index j hj] at hlt
    have hji : j < i := Nat.lt_of_add_lt_add_right hlt
    have between (k : Nat) (hlt : k < p.placed.length) (hk : k < i) (hjk : j < k) :
        key ∉ p.placed[k].statement.writtenScalars := by
      refine hlast _ (List.getElem_mem _) ?_ ?_
      · rw [index, index]
        exact Nat.add_lt_add_right hjk 2
      · rw [index, hreader]
        exact Nat.add_lt_add_right hk 2
    rw [Program.constants_sweepBefore hi hji hwrites fun k hk =>
      between k (Nat.lt_of_lt_of_le hk hi) hk] at hn
    obtain ⟨place, name, value, hstatement, hvalue⟩ := exists_assign_of_assigned? hn
    have hcommand : p.placed[j].statement.command? = some (.assign (.scalar name) value) := by
      rw [hstatement]
      rfl
    obtain rfl : key = name.key := by
      rw [hstatement] at hwrites
      exact List.mem_singleton.1 hwrites
    -- the assignment stored the value that its expression has with the known numbers
    have hdenotes := hstep.assigns _ hq hid.symm name value hcommand
    refine Expr.eq_of_denotes (fun _ _ => Value.number?_eq_some_iff.1)
      (evaluate?_of_known hvalue ?_) hdenotes
    intro read hread m hm
    exact ih name value hcommand read hread rfl hpast (index j hj) (Nat.le_of_lt hj) hm

/--
The bounds that a `DIM` gives an array are the rounded values of its extents on every run that
reaches it, if the scalars that the extents read were written in the order of the text.
-/
theorem dimensions_eq_extents (p : Program) (t : SymbolTable) :
    ∀ key info line, (SymbolTable.build p).table.arrays[key]? = some info →
      info.dimLine = some line → info.dimensions ≠ [] →
      ∃ q ∈ p.placed, ∃ place arrays, q.statement = .command place (.dim arrays) ∧
        place.line = line ∧ ∃ array ∈ arrays, array.name.key = key ∧
          ∀ memory s past, History (Executes p t) ⟨(Graph.entry, []), memory⟩ (s :: past) →
            s.control.1 = q.id →
            (∀ e ∈ array.extents, ∀ read, .scalar read ∈ e.subterms →
              WrittenInOrder p t (past.map fun d => d.control.1) q.id read.key) →
            EvaluateTo s.memory array.extents info.dimensions := by
  intro key info line hinfo hline hdimensions
  obtain ⟨i, hi, place, arrays, hdim, hplace, array, harray, hkey, hextents⟩ :=
    Program.exists_dim_of_bounds? (Nat.le_refl _) (Program.bounds?_of_build hinfo hline)
  refine ⟨_, List.getElem_mem hi, place, arrays, hdim, hplace, array, harray, hkey, ?_⟩
  intro memory s past hrun hs hordered
  have evaluated := hextents.resolve_left hdimensions
  rw [EvaluateTo, List.forall₂_iff_get]
  rw [List.forall₂_iff_get] at evaluated
  refine ⟨evaluated.1, fun k hk hk' => ?_⟩
  obtain ⟨x, hx, hd⟩ := evaluated.2 k hk hk'
  obtain ⟨v, hv, hn⟩ := Option.bind_eq_some_iff.1 hx
  rw [Value.number?_eq_some_iff.1 hn] at hv
  refine ⟨x, evaluate?_of_known hv fun read hread n hn => ?_, hd⟩
  exact memory_of_writtenInOrder (hordered _ (List.get_mem _ _) read hread) rfl hrun
    (p.id_getElem_placed hi) (Nat.le_of_lt hi) hn

end Runs

/-! ## A run that follows the text and one that does not -/

namespace SampleDim

/-- The assignment `N = 5`. -/
def assignment : Statement := .command ⟨10, 4⟩ (.assign (.scalar ⟨"N"⟩) (.number 5 "5"))

/-- The declaration `DIM A(N)`. -/
def declaration : ArrayDecl := ⟨⟨"A"⟩, [.scalar ⟨"N"⟩]⟩

/-- The line `N = 5` and, after the lines in between, `DIM A(N)`. -/
def program (between : List ProgramLine) : Program :=
  ⟨⟨10, [assignment], 1⟩ ::
    (between ++ [⟨40, [.command ⟨40, 4⟩ (.dim [declaration])], 4⟩])⟩

/-- The lines `GOTO 40` and `N = 3`. -/
def detour : List ProgramLine :=
  [⟨20, [.command ⟨20, 4⟩ (.goto 40)], 2⟩,
    ⟨30, [.command ⟨30, 4⟩ (.assign (.scalar ⟨"N"⟩) (.number 3 "3"))], 3⟩]

def table (between : List ProgramLine) : SymbolTable := (SymbolTable.build (program between)).table

/-- All scalars are zero. -/
def zeros : Memory Float := fun _ => .number 0

/-- Only `N` is not zero. -/
def assigned : Memory Float := Function.update zeros (Name.key ⟨"N"⟩) (.number 5)

/-- The run from the entry to the second statement. -/
theorem history_assigned (between : List ProgramLine)
    (hentry : (2, .normal) ∈ (Graph.build (program between)).successors Graph.entry)
    (hnext : (3, .normal) ∈ (Graph.build (program between)).successors 2) :
    History (Executes (program between) (table between)) ⟨(Graph.entry, []), zeros⟩
      [⟨(3, []), assigned⟩, ⟨(2, []), zeros⟩, ⟨(Graph.entry, []), zeros⟩] := by
  have toFirst := Graph.stackStep_of_normal (program between) hentry []
  have toSecond := Graph.stackStep_of_normal (program between) hnext []
  have denotes : (Expr.number 5 "5").Denotes zeros (.number 5) := ⟨5, rfl, rfl, by decide +kernel⟩
  have first : ∃ next, ⟨assignment, 2, 0, next⟩ ∈ (program between).placed :=
    ⟨_, List.mem_cons_self⟩
  obtain ⟨next, first⟩ := first
  exact (History.start.step (executes_entry zeros toFirst)).step
    (executes_assign first rfl toSecond denotes)

/-- The bound of the array in the symbol table. -/
theorem exists_info (between : List ProgramLine) (bound : Int)
    (h : ((table between).arrays["A"]?).any (fun info =>
      info.dimLine == some 40 && info.dimensions == [bound]) = true) :
    ∃ info, (table between).arrays["A"]? = some info ∧ info.dimLine = some 40 ∧
      info.dimensions = [bound] := by
  obtain ⟨info, hinfo, h⟩ := (Option.any_eq_true ..).1 h
  rw [Bool.and_eq_true, beq_iff_eq, beq_iff_eq] at h
  exact ⟨info, hinfo, h⟩

end SampleDim

open SampleDim in
/-- With nothing in between, the bound is the value of `N` when control is at the `DIM`. -/
theorem exists_dimensions_straightDim :
    ∃ info, (table []).arrays["A"]? = some info ∧ info.dimLine = some 40 ∧ info.dimensions = [5] ∧
      ∃ past, History (Executes (program []) (table [])) ⟨(Graph.entry, []), zeros⟩
          (⟨(3, []), assigned⟩ :: past) ∧
        EvaluateTo assigned declaration.extents info.dimensions := by
  obtain ⟨info, hinfo, hline, hdimensions⟩ := exists_info [] 5 (by decide +kernel)
  have hne : info.dimensions ≠ [] := by simp [hdimensions]
  obtain ⟨q, hq, place, arrays, hdim, -, array, harray, -, hruns⟩ :=
    dimensions_eq_extents (program []) (table []) "A" info 40 hinfo hline hne
  have run := history_assigned [] (by decide +kernel) (by decide +kernel)
  refine ⟨info, hinfo, hline, hdimensions, _, run, ?_⟩
  have placed : (program []).placed = [⟨assignment, 2, 0, 3⟩,
      ⟨.command ⟨40, 4⟩ (.dim [declaration]), 3, 0, Graph.exit⟩] := rfl
  rw [placed, List.mem_cons, List.mem_singleton] at hq
  rcases hq with rfl | rfl
  · cases hdim
  · cases hdim
    obtain rfl := List.mem_singleton.1 harray
    refine hruns zeros _ _ run rfl fun e he read hread => ?_
    obtain rfl := List.mem_singleton.1 he
    obtain ⟨rfl⟩ := List.mem_singleton.1 hread
    have hfirst : (⟨assignment, 2, 0, 3⟩ : Placed) ∈ (program []).placed := List.mem_cons_self
    refine WrittenInOrder.last hfirst (by decide) (List.mem_singleton_self _) ?_ ?_
    · intro q' _ hlt hgt
      exact absurd (Nat.lt_of_lt_of_le hgt hlt) (Nat.lt_irrefl _)
    · rintro name value hc read hread
      cases hc
      cases hread
      next h => cases h

open SampleDim in
/-- The jump past `N = 3` leads to the `DIM` with the value 5 of `N`, but the bound is 3. -/
theorem dimensions_ne_extents :
    ∃ info, (table detour).arrays["A"]? = some info ∧ info.dimLine = some 40 ∧
      info.dimensions = [3] ∧ (SymbolTable.build (program detour)).errors = [] ∧
      ∃ past, History (Executes (program detour) (table detour)) ⟨(Graph.entry, []), zeros⟩
          (⟨(5, []), assigned⟩ :: past) ∧
        EvaluateTo assigned declaration.extents [5] ∧
        ¬ EvaluateTo assigned declaration.extents info.dimensions := by
  obtain ⟨info, hinfo, hline, hdimensions⟩ := exists_info detour 3 (by decide +kernel)
  have run := history_assigned detour (by decide +kernel) (by decide +kernel)
  have edge : (5, .jump) ∈ (Graph.build (program detour)).successors 3 := by decide +kernel
  have jump : (Graph.build (program detour)).StackStep (3, []) (5, []) :=
    Graph.stackStep_of_mem (Graph.wellFormed_build _) edge nofun nofun []
  have second : (⟨.command ⟨20, 4⟩ (.goto 40), 3, 0, 4⟩ : Placed) ∈ (program detour).placed :=
    List.mem_cons_of_mem _ List.mem_cons_self
  have value : (Expr.scalar ⟨"N"⟩).evaluate? (fun key => (assigned key).number?) =
      some (.number 5) := by
    simp [Expr.evaluate?, assigned, Value.number?]
  have rounded : Arithmetic.nearest? (5 : Float) = some 5 := by decide +kernel
  refine ⟨info, hinfo, hline, hdimensions, List.isEmpty_iff.1 (by decide +kernel), _,
    run.step (executes_of_ne_assign second (fun _ _ h => by cases h) assigned jump),
    .cons ⟨5, value, rounded⟩ .nil, ?_⟩
  rw [hdimensions]
  rintro (_ | ⟨⟨x, hx, hd⟩, _⟩)
  obtain ⟨rfl⟩ := Value.number.inj (Option.some.inj (hx.symm.trans value))
  exact absurd (hd.symm.trans rounded) (by decide)

end LineBasic
