import LineBasic.Proofs.Flow.Effects
import LineBasic.Proofs.Flow.FunctionReads
import LineBasic.Proofs.Graph.Brackets
import LineBasic.Proofs.Symbol.Sweep

/-!
# The names of scalars

Two walks over a program meet its scalars: the sweep over the declarations, which takes the
statements as they are written, and the effects of the nodes, which follow the calls of functions
and the loops that a `NEXT` closes. If the loops are matched without an issue, both meet the same
scalars, but for those in bodies of functions that nothing calls (`SymbolTable.mem_scalars_iff`).
-/

namespace LineBasic

/-- The sweep over the declarations meets the scalar at the command. The counters of a `NEXT` are
passed over, and parameters of functions are no scalars. -/
def Command.Meets (c : Command) (key : String) : Prop :=
  match c with
  | .defFn _ params body => body.Mentions key ∧ key ∉ params.map Name.key
  | .next _ => False
  | .forLoop counter .. => (∃ e ∈ c.roots, e.Mentions key) ∨ counter.key = key
  | _ => (∃ e ∈ c.roots, e.Mentions key) ∨ ∃ target ∈ c.targets, target.scalarKey? = some key

/-- The same of a statement, without those inside its arms. -/
def Statement.Meets (s : Statement) (key : String) : Prop :=
  match s with
  | .command _ c => c.Meets key
  | .conditional _ condition .. => condition.Mentions key

/-! ## The sweep -/

namespace SymbolSweep

variable {s s' s'' : SymbolSweep} {new new' : String → Prop}

/-- The scalars with a property are added to the table, and no others. -/
structure Adds (new : String → Prop) (s s' : SymbolSweep) : Prop where
  scalars : ∀ key, key ∈ s'.table.scalars ↔ key ∈ s.table.scalars ∨ new key
  functions : s'.table.functions = s.table.functions

theorem Adds.trans (h : Adds new s s') (h' : Adds new' s' s'') :
    Adds (fun key => new key ∨ new' key) s s'' where
  scalars key := by rw [h'.scalars, h.scalars, or_assoc]
  functions := h'.functions.trans h.functions

theorem Adds.congr (h : Adds new s s') (hnew : ∀ key, new key ↔ new' key) : Adds new' s s' :=
  ⟨fun key => (h.scalars key).trans (or_congr_right (hnew key)), h.functions⟩

/-- The table has the same scalars and functions. -/
structure Keeps (s s' : SymbolSweep) : Prop where
  scalars : s'.table.scalars = s.table.scalars
  functions : s'.table.functions = s.table.functions

theorem Keeps.refl (s : SymbolSweep) : Keeps s s := ⟨rfl, rfl⟩

theorem Keeps.trans (h : Keeps s s') (h' : Keeps s' s'') : Keeps s s'' :=
  ⟨h'.scalars.trans h.scalars, h'.functions.trans h.functions⟩

theorem Keeps.adds (h : Keeps s s') (hnew : ∀ key, ¬ new key) : Adds new s s' :=
  ⟨fun key => by rw [h.scalars, or_iff_left (hnew key)], h.functions⟩

theorem Adds.trans_keeps (h : Adds new s s') (h' : Keeps s' s'') : Adds new s s'' :=
  ⟨fun key => by rw [h'.scalars, h.scalars], h'.functions.trans h.functions⟩

theorem keeps_foldl {α : Type} (f : SymbolSweep → α → SymbolSweep) (hf : ∀ s a, Keeps s (f s a))
    (items : List α) (s : SymbolSweep) : Keeps s (items.foldl f s) :=
  List.foldlRecOn items f (Keeps.refl s) fun _ h a _ => h.trans (hf _ a)

theorem adds_foldl {α : Type} (new : α → String → Prop) {f : SymbolSweep → α → SymbolSweep}
    (hf : ∀ s a, Adds (new a) s (f s a)) (items : List α) (s : SymbolSweep) :
    Adds (fun key => ∃ a ∈ items, new a key) s (items.foldl f s) := by
  induction items generalizing s with
  | nil => exact (Keeps.refl s).adds (by simp)
  | cons a rest ih => exact ((hf s a).trans (ih (f s a))).congr fun key => by simp

theorem adds_touchScalar (s : SymbolSweep) (line : Nat) (name : Name) :
    Adds (name.key = ·) s (s.touchScalar line name) := by
  rw [touchScalar]
  split
  next hold =>
    refine ⟨fun key => (or_iff_left_of_imp fun heq => ?_).symm, rfl⟩
    exact heq ▸ Std.ExtTreeMap.contains_iff_mem.1 hold
  next =>
    refine ⟨fun key => ?_, rfl⟩
    rw [Std.ExtTreeMap.mem_insert, Std.LawfulEqCmp.compare_eq_iff_eq, or_comm]

theorem keeps_touchArray (s : SymbolSweep) (line : Nat) (name : Name) (rank : Nat) :
    Keeps s (s.touchArray line name rank) := by
  rw [touchArray]
  dsimp only
  split <;> exact ⟨rfl, rfl⟩

theorem adds_touchExpr (line : Nat) (hidden : List String) (s : SymbolSweep) (e : Expr Float) :
    Adds (fun key => e.Mentions key ∧ key ∉ hidden) s (s.touchExpr line hidden e) := by
  -- what one subexpression adds
  let new (sub : Expr Float) (key : String) : Prop :=
    ∃ name, sub = .scalar name ∧ name.key = key ∧ key ∉ hidden
  refine (adds_foldl new (fun s sub => ?_) e.subterms s).congr fun key => ?_
  · cases sub with
    | scalar name =>
      dsimp only
      split
      next hhidden =>
        refine (Keeps.refl s).adds fun key => ?_
        rintro ⟨_, ⟨⟩, rfl, hfree⟩
        exact hfree (List.contains_iff_mem.1 hhidden)
      next hfree =>
        refine (adds_touchScalar s line name).congr fun key => ⟨fun heq => ?_, ?_⟩
        · exact ⟨name, rfl, heq, heq ▸ fun h => hfree (List.contains_iff_mem.2 h)⟩
        · rintro ⟨_, ⟨⟩, heq, -⟩
          exact heq
    | element name subscripts => exact (keeps_touchArray ..).adds nofun
    | _ => exact (Keeps.refl s).adds nofun
  · constructor
    · rintro ⟨_, hsub, name, rfl, hkey, hfree⟩
      exact ⟨⟨name, hsub, hkey⟩, hfree⟩
    · rintro ⟨⟨name, hsub, hkey⟩, hfree⟩
      exact ⟨_, hsub, name, rfl, hkey, hfree⟩

theorem adds_touchExprs (line : Nat) (s : SymbolSweep) (es : List (Expr Float)) :
    Adds (fun key => ∃ e ∈ es, e.Mentions key) s (s.touchExprs line es) :=
  adds_foldl _ (fun s e => (adds_touchExpr line [] s e).congr fun key => by simp) es s

theorem adds_assign (line : Nat) (s : SymbolSweep) (target : Target Float) :
    Adds (target.scalarKey? = some ·) s (s.assign line target) := by
  cases target with
  | scalar name =>
    have met := (adds_touchScalar s line name).congr fun key => Option.some_inj.symm
    exact met.trans_keeps ⟨rfl, rfl⟩
  | element name subscripts => exact (keeps_touchArray ..).adds nofun

theorem keeps_declare (line : Nat) (s : SymbolSweep) (array : ArrayDecl) :
    Keeps s (s.declare line array) := by
  rw [declare]
  dsimp only
  split
  · exact ⟨rfl, rfl⟩
  next =>
    have failed := keeps_foldl (fun s cause => s.fail line cause) fun _ _ => ⟨rfl, rfl⟩
    exact ((failed _ s).trans (keeps_touchArray _ line array.name _)).trans ⟨rfl, rfl⟩

/-- A command adds the scalars that it meets. -/
theorem adds_command (line depth : Nat) (s : SymbolSweep) (c : Command) :
    Adds c.Meets s (s.command line depth c) := by
  have met (es : List (Expr Float)) := adds_touchExprs line s es
  cases c with
  | assign target value =>
    have assigned := ((adds_touchExpr line [] s value).trans
      (adds_touchExprs line _ target.subscripts)).trans (adds_assign line _ target)
    refine (assigned.trans_keeps ?_).congr fun key => ?_
    · unfold command
      dsimp only
      split <;> exact ⟨rfl, rfl⟩
    · simp [Command.Meets, Command.roots, Command.parts, Part.roots, Command.targets, or_and_right,
        exists_or, or_comm]
  | input | read => exact (met _).trans (adds_foldl _ (adds_assign line) _ _)
  | lineInput channel prompt target =>
    exact ((met _).trans (adds_assign line _ target)).congr fun key => by
      simp [Command.Meets, Command.targets]
  | swap left right =>
    exact (((met _).trans (adds_assign line _ left)).trans (adds_assign line _ right)).congr
      fun key => by simp [Command.Meets, Command.targets, or_assoc]
  | forLoop counter =>
    exact ((met _).trans (adds_touchScalar _ line counter)).trans_keeps ⟨rfl, rfl⟩
  | next counters =>
    have forgotten := keeps_foldl forget (fun _ _ => ⟨rfl, rfl⟩) counters s
    exact forgotten.adds fun _ => id
  | dim arrays =>
    exact ((met _).trans_keeps (keeps_foldl _ (keeps_declare line) arrays _)).congr fun key => by
      simp [Command.Meets, Command.targets]
  | defFn name params body => exact adds_touchExpr line _ s body
  | _ => exact (met _).congr fun key => by simp [Command.Meets, Command.targets]

theorem adds_statement (s : SymbolSweep) (occurrence : Statement × Nat) :
    Adds occurrence.1.Meets s (s.statement occurrence) := by
  obtain ⟨⟨place, c⟩ | ⟨place, condition, onTrue, onFalse⟩, depth⟩ := occurrence
  · exact adds_command place.line depth s c
  · exact (adds_touchExpr place.line [] s condition).congr fun key => by simp [Statement.Meets]

/-! ## Definitions of functions -/

/-- No scalar has been met, and the functions are those of some `DEF FN` among the statements. -/
structure DefinesFrom (statements : List Statement) (s : SymbolSweep) : Prop where
  scalars : s.table.scalars = ∅
  functions : ∀ (key : String) (f : FunctionInfo), s.table.functions[key]? = some f →
    ∃ place name params, .command place (.defFn name params f.body) ∈ statements ∧
      f.parameters = params.map Name.key

theorem DefinesFrom.keeps {statements : List Statement} (h : DefinesFrom statements s)
    (hs : Keeps s s') : DefinesFrom statements s' where
  scalars := hs.scalars.trans h.scalars
  functions := hs.functions ▸ h.functions

theorem DefinesFrom.step {statements : List Statement} (h : DefinesFrom statements s)
    {statement : Statement} (hmem : statement ∈ statements) :
    DefinesFrom statements (s.directive statement) := by
  unfold SymbolSweep.directive
  split
  next place base =>
    refine h.keeps ?_
    unfold optionBase
    split_ifs
    · exact ⟨rfl, rfl⟩
    · split <;> exact ⟨rfl, rfl⟩
    · split <;> exact ⟨rfl, rfl⟩
  next => exact h.keeps ⟨rfl, rfl⟩
  next place name params body =>
    unfold defFn
    split
    next => exact h.keeps ⟨rfl, rfl⟩
    next =>
      refine ⟨h.scalars, fun key f hf => ?_⟩
      simp only [Std.ExtTreeMap.getElem?_insert] at hf
      split at hf
      · obtain rfl := Option.some.inj hf
        exact ⟨place, name, params, hmem, rfl⟩
      · exact h.functions key f hf
  next => exact h

theorem definesFrom_foldl (statements : List Statement) :
    DefinesFrom statements (statements.foldl SymbolSweep.directive .empty) :=
  List.foldlRecOn statements SymbolSweep.directive ⟨rfl, by simp [empty, SymbolTable.empty]⟩
    fun _ h _ hmem => h.step hmem

end SymbolSweep

namespace SymbolTable

/-- The scalars of the table are those that the sweep meets at some statement. -/
theorem mem_scalars_build (p : Program) (key : String) :
    key ∈ (build p).table.scalars ↔ ∃ s ∈ p.allStatements, s.Meets key := by
  have swept := SymbolSweep.adds_foldl _ SymbolSweep.adds_statement p.occurrences
    (p.allStatements.foldl SymbolSweep.directive .empty)
  refine (swept.scalars key).trans ?_
  rw [(SymbolSweep.definesFrom_foldl _).scalars]
  simp [Program.allStatements]

/-- The functions of the table are defined in the program. -/
theorem exists_defFn_of_functions {p : Program} {key : String} {f : FunctionInfo}
    (h : (build p).table.functions[key]? = some f) : ∃ place name params,
      .command place (.defFn name params f.body) ∈ p.allStatements ∧
        f.parameters = params.map Name.key := by
  have swept := SymbolSweep.adds_foldl _ SymbolSweep.adds_statement p.occurrences
    (p.allStatements.foldl SymbolSweep.directive .empty)
  simp only [build, Std.ExtTreeMap.getElem?_map, swept.functions] at h
  obtain ⟨g, hg, rfl⟩ := Option.map_eq_some_iff.1 h
  exact (SymbolSweep.definesFrom_foldl _).functions key g hg

end SymbolTable

/-! ## Effects -/

/-- The scalar is among what is read and written. -/
def Effects.Names (fx : Effects) (key : String) : Prop :=
  (∃ u ∈ fx.uses, u.name = key) ∨ key ∈ fx.defs

/-- The expression reads the scalar, possibly in a function. -/
def SymbolTable.Reads (t : SymbolTable) (e : Expr Float) (key : String) : Prop :=
  e.Mentions key ∨ ∃ callee f, t.Reaches e callee f ∧ key ∈ f.freeVariables

theorem SymbolTable.exists_mem_exprReads {t : SymbolTable} {e : Expr Float} {key : String}
    (context : UseContext) : (∃ u ∈ t.exprReads context e, u.name = key) ↔ t.Reads e key := by
  rw [← List.mem_map, mem_exprReads_iff, Reads]

namespace Command

variable {t : SymbolTable} {closed : List ForLoop} {key : String} {c : Command}

theorem mem_roots_print {channel : Option (Expr Float)} {items : List PrintItem} {e : Expr Float} :
    e ∈ (print channel items).roots ↔ channel = some e ∨ .expr e ∈ items := by
  simp only [roots, parts, List.flatMap_append, List.mem_append, List.mem_flatMap, List.mem_map,
    List.mem_filterMap, Option.mem_toList]
  constructor
  · rintro (⟨_, ⟨a, rfl, rfl⟩, he⟩ | ⟨part, ⟨item, hitem, hpart⟩, he⟩)
    · exact .inl (List.mem_singleton.1 he ▸ rfl)
    · cases item with
      | expr a =>
        cases hpart
        exact .inr (List.mem_singleton.1 he ▸ hitem)
      | _ => cases hpart
  · rintro (rfl | he)
    · exact .inl ⟨_, ⟨e, rfl, rfl⟩, List.mem_singleton_self e⟩
    · exact .inr ⟨_, ⟨_, he, rfl⟩, List.mem_singleton_self e⟩

/-- What a command evaluates are its roots; the body of a function is not evaluated. -/
theorem mem_map_evaluations (hdef : ∀ name params body, c ≠ .defFn name params body)
    {e : Expr Float} : e ∈ c.evaluations.map Evaluated.expr ↔ e ∈ c.roots := by
  cases c with
  | defFn name params body => exact absurd rfl (hdef name params body)
  | assign target value =>
    simp [evaluations, sources, targets, subscriptsOf, evaluated, roots, parts, Part.roots, or_comm]
  | print channel items =>
    simp only [mem_roots_print, evaluations, sources, targets, subscriptsOf, evaluated,
      List.flatMap_nil, List.map_nil, List.append_nil, List.map_append, List.map_map,
      List.mem_append, List.map_id', Function.comp_def, Option.mem_toList, List.mem_filterMap]
    refine or_congr_right ⟨?_, fun he => ⟨_, he, rfl⟩⟩
    rintro ⟨item, hitem, he⟩
    cases item with
    | expr e' => exact Option.some.inj he ▸ hitem
    | _ => cases he
  | _ =>
    simp [evaluations, sources, targets, subscriptsOf, evaluated, roots, parts, Part.roots]

/-- What is read for expressions that are evaluated. -/
theorem exists_reads_iff {es : List Evaluated} :
    (∃ u ∈ es.flatMap fun e => t.exprReads e.context e.expr, u.name = key) ↔
      ∃ e ∈ es.map Evaluated.expr, t.Reads e key := by
  simp only [List.mem_flatMap, List.mem_map]
  constructor
  · rintro ⟨u, ⟨e, he, hu⟩, hkey⟩
    exact ⟨e.expr, ⟨e, he, rfl⟩, (SymbolTable.exists_mem_exprReads e.context).1 ⟨u, hu, hkey⟩⟩
  · rintro ⟨_, ⟨e, he, rfl⟩, hreads⟩
    obtain ⟨u, hu, hkey⟩ := (SymbolTable.exists_mem_exprReads e.context).2 hreads
    exact ⟨u, ⟨e, he, hu⟩, hkey⟩

/-- A `SWAP` reads the scalars that it writes. -/
theorem exists_mem_uses_swap {left right : Target Float} :
    (∃ u ∈ ((swap left right).effects t closed).uses, u.name = key) ↔
      (∃ u ∈ (swap left right).evaluations.flatMap fun e => t.exprReads e.context e.expr,
        u.name = key) ∨ ∃ target ∈ [left, right], target.scalarKey? = some key := by
  cases left <;> cases right <;>
    simp [effects, evaluations, sources, targets, subscriptsOf, evaluated, Target.subscripts,
      Target.scalarKey?, or_and_right, exists_or, or_comm]

/-- The effects of a command name what its expressions read, and the scalars that it writes. -/
theorem names_effects_iff (hdef : ∀ name params body, c ≠ .defFn name params body)
    (hnext : ∀ counters, c ≠ .next counters) :
    (c.effects t closed).Names key ↔
      c.Meets key ∨ ∃ e ∈ c.roots, ∃ callee f, t.Reaches e callee f ∧ key ∈ f.freeVariables := by
  have evaluates :
      (∃ u ∈ c.evaluations.flatMap fun e => t.exprReads e.context e.expr, u.name = key) ↔
      (∃ e ∈ c.roots, e.Mentions key) ∨
        ∃ e ∈ c.roots, ∃ callee f, t.Reaches e callee f ∧ key ∈ f.freeVariables := by
    simp only [exists_reads_iff, mem_map_evaluations hdef, SymbolTable.Reads, and_or_left,
      exists_or]
  cases c with
  | defFn name params body => exact absurd rfl (hdef name params body)
  | next counters => exact absurd rfl (hnext counters)
  | swap left right =>
    rw [Effects.Names, exists_mem_uses_swap, evaluates]
    simp only [Meets, effects, targets, effects.written, List.mem_filterMap]
    rw [or_assoc, or_self, or_right_comm]
  | forLoop counter =>
    simp only [Effects.Names, effects, evaluates, Meets, List.mem_singleton]
    rw [or_right_comm, eq_comm]
  | _ =>
    simp only [Effects.Names, effects, evaluates, Meets, effects.written, List.mem_filterMap]
    rw [or_right_comm]

end Command

/-! ## Loops -/

/-- In a well-bracketed program each `NEXT` closes a loop, and names its counter if any. -/
theorem Bracketed.exists_forLoop {tokens : List LoopToken} {fors : List ForLoop}
    {whiles : List WhileLoop} (h : Bracketed tokens fors whiles) {id : NodeId}
    {name : Option String} (hnext : .next id name ∈ tokens) :
    ∃ l ∈ fors, l.nextNode = id ∧ ∀ c ∈ name, c = l.counter := by
  induction h with
  | nil => cases hnext
  | @forLoop node id' counter name' body rest fors fors' whiles whiles' hname _ _ ihbody ihrest =>
    simp only [List.mem_cons, List.mem_append, reduceCtorEq, false_or,
      LoopToken.next.injEq] at hnext
    rcases hnext with hbody | ⟨rfl, rfl⟩ | hrest
    · obtain ⟨l, hl, hid⟩ := ihbody hbody
      exact ⟨l, List.mem_append_left _ hl, hid⟩
    · exact ⟨⟨node, id, counter⟩, by simp, rfl, hname⟩
    · obtain ⟨l, hl, hid⟩ := ihrest hrest
      exact ⟨l, List.mem_append_right _ (List.mem_cons_of_mem _ hl), hid⟩
  | whileLoop _ _ ihbody ihrest =>
    simp only [List.mem_cons, List.mem_append, reduceCtorEq, false_or] at hnext
    rcases hnext with hbody | hrest
    · obtain ⟨l, hl, hid⟩ := ihbody hbody
      exact ⟨l, List.mem_append_left _ hl, hid⟩
    · obtain ⟨l, hl, hid⟩ := ihrest hrest
      exact ⟨l, List.mem_append_right _ hl, hid⟩

namespace Program

variable {p : Program} {q : Placed} {key : String}

theorem mem_allStatements {s : Statement} :
    s ∈ p.allStatements ↔ ∃ q ∈ p.placed, q.statement = s := by
  rw [allStatements, occurrences, occurrencesOfList_eq 2 Graph.exit, List.map_map, List.mem_map]
  rfl

/-- Without issues, what a `NEXT` steps is the counter of a `FOR` of the program. -/
theorem exists_for_of_mem_steppedCounters (hissues : (Graph.build p).issues = [])
    (hq : q ∈ p.placed) {counters : List Name}
    (hc : q.statement.command? = some (.next counters))
    (hkey : key ∈ Command.steppedCounters ((Graph.build p).loopsClosedBy q.id) counters) :
    ∃ s ∈ p.allStatements, s.Meets key := by
  obtain ⟨l, hl, rfl⟩ : ∃ l ∈ p.matchedLoops.forLoops, l.counter = key := by
    cases counters with
    | nil =>
      obtain ⟨l, hl, hkey⟩ := List.mem_map.1 hkey
      exact ⟨l, (List.mem_filter.1 hl).1, hkey⟩
    | cons first rest =>
      obtain ⟨name, hname, rfl⟩ := List.mem_map.1 hkey
      have bracketed := p.bracketed_iff.2 ⟨hissues, rfl, rfl⟩
      have token : .next q.id (some name.key) ∈ p.loopTokens := by
        rw [loopTokens_eq_flatMap_placed, List.flatMap_map, List.mem_flatMap]
        refine ⟨q, hq, ?_⟩
        simp only [Statement.loopTokens, hc]
        exact List.mem_map.2 ⟨name, hname, rfl⟩
      obtain ⟨l, hl, -, hcounter⟩ := bracketed.exists_forLoop token
      exact ⟨l, hl, (hcounter _ rfl).symm⟩
  obtain ⟨q', hq', -, c, hc', counter, start, stop, step, rfl, hcounter⟩ :=
    exists_for_of_mem_forLoops hl
  refine ⟨q'.statement, mem_allStatements.2 ⟨q', hq', rfl⟩, ?_⟩
  cases hs : q'.statement with
  | conditional => simp [hs, Statement.command?] at hc'
  | command place c =>
    obtain rfl : c = .forLoop counter start stop step := by simpa [hs, Statement.command?] using hc'
    exact .inr hcounter

end Program

/-! ## Agreement -/

theorem Effects.not_names_none {key : String} : ¬ Effects.none.Names key := by
  simp [Names, none]

/-- The nodes that read or write a scalar are those of statements. -/
theorem Graph.exists_names_iff {p : Program} {t : SymbolTable} {key : String} :
    (∃ id, ReadsAt ((build p).effects t) id key ∨ WritesAt ((build p).effects t) id key) ↔
      ∃ q ∈ p.placed, (q.statement.effects t ((build p).loopsClosedBy q.id)).Names key := by
  constructor
  · rintro ⟨id, h⟩
    obtain ⟨fx, hfx, hnames⟩ : ∃ fx, ((build p).effects t)[id]? = some fx ∧ fx.Names key := by
      rcases h with ⟨fx, hfx, h⟩ | ⟨fx, hfx, h⟩
      · exact ⟨fx, hfx, .inl h⟩
      · exact ⟨fx, hfx, .inr h⟩
    rw [getElem?_effects] at hfx
    obtain ⟨n, hn, rfl⟩ := Option.map_eq_some_iff.1 hfx
    rcases eq_of_node?_build hn with ⟨hs, -⟩ | ⟨q, hq, rfl, rfl⟩
    · rw [hs] at hnames
      exact absurd hnames Effects.not_names_none
    · exact ⟨q, hq, hnames⟩
  · rintro ⟨q, hq, hnames⟩
    have hfx := getElem?_effects_of_mem_placed hq t
    exact ⟨q.id, hnames.imp (fun h => ⟨_, hfx, h⟩) fun h => ⟨_, hfx, h⟩⟩

namespace SymbolTable

variable {p : Program} {key : String}

/-- The free variables of a function that the program defines are met at its definition. -/
theorem exists_meets_of_mem_freeVariables {callee : String} {f : FunctionInfo}
    (hf : (build p).table.functions[callee]? = some f) (hkey : key ∈ f.freeVariables) :
    ∃ s ∈ p.allStatements, s.Meets key := by
  obtain ⟨place, name, params, hmem, hparams⟩ := exists_defFn_of_functions hf
  rw [FunctionInfo.mem_freeVariables, hparams] at hkey
  exact ⟨_, hmem, hkey⟩

/-- What the effects of a statement name is met by the sweep, there or at another statement. -/
theorem exists_meets_of_names (hissues : (Graph.build p).issues = []) {q : Placed}
    (hq : q ∈ p.placed) (h : (q.statement.effects (build p).table
      ((Graph.build p).loopsClosedBy q.id)).Names key) : ∃ s ∈ p.allStatements, s.Meets key := by
  have called {e : Expr Float} : (∃ callee f, (build p).table.Reaches e callee f ∧
      key ∈ f.freeVariables) → ∃ s ∈ p.allStatements, s.Meets key := by
    rintro ⟨callee, f, hreaches, hkey⟩
    exact exists_meets_of_mem_freeVariables hreaches.avoids_nil.getElem? hkey
  have hmem : q.statement ∈ p.allStatements := Program.mem_allStatements.2 ⟨q, hq, rfl⟩
  rcases hs : q.statement with ⟨place, c⟩ | ⟨place, condition, onTrue, onFalse⟩
  · rw [hs] at h hmem
    by_cases hdef : ∃ name params body, c = .defFn name params body
    · obtain ⟨name, params, body, rfl⟩ := hdef
      exact absurd h Effects.not_names_none
    by_cases hnext : ∃ counters, c = .next counters
    · obtain ⟨counters, rfl⟩ := hnext
      refine Program.exists_for_of_mem_steppedCounters hissues hq (by rw [hs]; rfl) ?_
      simpa [Effects.Names, Statement.effects, Command.effects] using h
    · rcases (Command.names_effects_iff (fun _ _ _ h => hdef ⟨_, _, _, h⟩)
        fun _ h => hnext ⟨_, h⟩).1 h with hmeets | ⟨e, -, hcalled⟩
      · exact ⟨_, hmem, hmeets⟩
      · exact called hcalled
  · rw [hs] at h hmem
    have hreads : (build p).table.Reads condition key :=
      (exists_mem_exprReads .condition).1 (by simpa [Effects.Names, Statement.effects] using h)
    rcases hreads with hmentions | hcalled
    · exact ⟨_, hmem, hmentions⟩
    · exact called hcalled

/--
The scalars of the table are those that some node reads or writes, reachable or not and inside arms
as well, and those that occur in the body of a `DEF FN`, a second definition of a function as well,
without being parameters of it.
-/
theorem mem_scalars_iff (p : Program) (hissues : (Graph.build p).issues = []) (key : String) :
    key ∈ (build p).table.scalars ↔
      (∃ id, ReadsAt ((Graph.build p).effects (build p).table) id key ∨
        WritesAt ((Graph.build p).effects (build p).table) id key) ∨
      ∃ place name params body, .command place (.defFn name params body) ∈ p.allStatements ∧
        body.Mentions key ∧ key ∉ params.map Name.key := by
  rw [mem_scalars_build, Graph.exists_names_iff]
  constructor
  · rintro ⟨s, hs, hmeets⟩
    obtain ⟨q, hq, rfl⟩ := Program.mem_allStatements.1 hs
    rcases hstatement : q.statement with ⟨place, c⟩ | ⟨place, condition, onTrue, onFalse⟩
    · rw [hstatement] at hmeets hs
      by_cases hdef : ∃ name params body, c = .defFn name params body
      · obtain ⟨name, params, body, rfl⟩ := hdef
        exact .inr ⟨place, name, params, body, hs, hmeets⟩
      · refine .inl ⟨q, hq, ?_⟩
        rw [hstatement]
        refine (Command.names_effects_iff (fun _ _ _ h => hdef ⟨_, _, _, h⟩) ?_).2 (.inl hmeets)
        rintro counters rfl
        exact hmeets
    · rw [hstatement] at hmeets
      refine .inl ⟨q, hq, ?_⟩
      rw [hstatement]
      exact .inl ((exists_mem_exprReads .condition).2 (.inl hmeets))
  · rintro (⟨q, hq, hnames⟩ | ⟨place, name, params, body, hmem, hfree⟩)
    · exact exists_meets_of_names hissues hq hnames
    · exact ⟨_, hmem, hfree⟩

namespace RedefinedFunction

/-- A function whose second definition, which counts for nothing else, reads `H`, and a loop that a
`NEXT` without a name closes. -/
def program : Program :=
  let commands : List Command :=
    [.defFn ⟨"FNA"⟩ [⟨"X"⟩] (.binary .add (.scalar ⟨"X"⟩) (.scalar ⟨"G"⟩)),
      .defFn ⟨"FNA"⟩ [⟨"X"⟩] (.scalar ⟨"H"⟩),
      .forLoop ⟨"I"⟩ (.number 1 "1") (.number 3 "3") none, .next []]
  ⟨commands.zipIdx.map fun (c, i) =>
    ⟨10 * (i + 1), [.command ⟨10 * (i + 1), 4⟩ c], i + 1⟩⟩

end RedefinedFunction

open RedefinedFunction in
theorem mem_scalars_redefinedFunction :
    (Graph.build program).issues = [] ∧ "H" ∈ (build program).table.scalars ∧
      "I" ∈ (build program).table.scalars := by
  have hissues : (Graph.build program).issues = [] := by decide +kernel
  refine ⟨hissues, (mem_scalars_iff program hissues "H").2 (.inr ?_),
    (mem_scalars_iff program hissues "I").2 (.inl ⟨5, ?_⟩)⟩
  · refine ⟨⟨20, 4⟩, ⟨"FNA"⟩, [⟨"X"⟩], .scalar ⟨"H"⟩, ?_, ⟨⟨"H"⟩, ?_, ?_⟩, ?_⟩
    · exact .tail _ (.head _)
    · exact .head _
    · decide +kernel
    · decide +kernel
  · decide +kernel

end SymbolTable
end LineBasic
