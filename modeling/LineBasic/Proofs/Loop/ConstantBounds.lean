import LineBasic.Proofs.Flow.DefiniteAssignment
import LineBasic.Proofs.Flow.Execution
import LineBasic.Proofs.Loop.Invariants

/-!
# Constant bounds

A scalar that the whole program writes only once, with a constant, has that constant as its value
from the write on (`memory_of_constantAssignment`). Where it is definitely assigned, the write is in
the past of every run. So a bound that a summary gives as a constant is the value of its expression
whenever control is at the `FOR` (`constantBounds_hold`).
-/

namespace LineBasic

/-! ## The only write of a scalar -/

section Count

variable {effects : List Effects} {name : String} {fx : Effects}

theorem count_pos_of_mem_defs (hfx : fx ∈ effects) (hname : name ∈ fx.defs) :
    0 < definitionsOf name effects :=
  List.count_pos_iff.2 (List.mem_flatMap.2 ⟨fx, hfx, hname⟩)

/-- Writes at two nodes are two writes. -/
theorem two_le_definitionsOf {fx' : Effects} {i j : Nat} (hij : i < j)
    (hi : effects[i]? = some fx) (hj : effects[j]? = some fx') (hname : name ∈ fx.defs)
    (hname' : name ∈ fx'.defs) : 2 ≤ definitionsOf name effects := by
  have before : fx ∈ effects.take j :=
    List.mem_of_getElem? ((List.getElem?_take_of_lt hij).trans hi)
  have after : fx' ∈ effects.drop j := by
    refine List.mem_of_getElem? (i := 0) ?_
    rw [List.getElem?_drop, Nat.add_zero, hj]
  have hsplit : definitionsOf name effects =
      definitionsOf name (effects.take j) + definitionsOf name (effects.drop j) := by
    rw [definitionsOf, definitionsOf, definitionsOf, ← List.count_append, ← List.flatMap_append,
      List.take_append_drop]
  have hbefore := count_pos_of_mem_defs before hname
  have hafter := count_pos_of_mem_defs after hname'
  omega

/-- If a scalar is written only once, it is written at one node only. -/
theorem eq_of_writesAt {effects : Array Effects} (h : definitionsOf name effects.toList = 1)
    {i j : NodeId} (hi : WritesAt effects i name) (hj : WritesAt effects j name) : i = j := by
  obtain ⟨fx, hfx, hname⟩ := hi
  obtain ⟨fx', hfx', hname'⟩ := hj
  rw [← Array.getElem?_toList] at hfx hfx'
  by_contra hne
  rcases Nat.lt_or_gt_of_ne hne with hlt | hgt
  · have := two_le_definitionsOf hlt hfx hfx' hname hname'
    omega
  · have := two_le_definitionsOf hgt hfx' hfx hname' hname
    omega

end Count

/-! ## Constant scalars -/

section Constants

variable {g : Graph} {effects : Array Effects} {name : String} {v : Float}

/-- A constant scalar has a constant assignment. -/
theorem exists_mem_constantAssignments (h : (programConstants g effects)[name]? = some v) :
    ∃ c ∈ constantAssignments g effects, c.name = name ∧ c.value = v := by
  -- the table as it grows holds values of assignments only
  have grows (list : List ConstantAssignment) (m : Std.ExtTreeMap String Float)
      (h : (list.foldl (fun m c => m.insert c.name c.value) m)[name]? = some v) :
      m[name]? = some v ∨ ∃ c ∈ list, c.name = name ∧ c.value = v := by
    induction list generalizing m with
    | nil => exact .inl h
    | cons c rest ih =>
      rcases ih _ h with h | ⟨c', hc', hvalue⟩
      · rw [Std.ExtTreeMap.getElem?_insert] at h
        split at h
        next hname =>
          have hname : c.name = name := Std.LawfulEqCmp.eq_of_compare hname
          exact .inr ⟨c, List.mem_cons_self, hname, Option.some.inj h⟩
        next => exact .inl h
      · exact .inr ⟨c', List.mem_cons_of_mem _ hc', hvalue⟩
  refine (grows _ _ h).resolve_left fun h => ?_
  simp at h

/-- A constant assignment is that of a node, and nothing else writes its scalar. -/
theorem exists_node_of_mem_constantAssignments {c : ConstantAssignment}
    (h : c ∈ constantAssignments g effects) :
    ∃ n ∈ g.nodes, ∃ target value, n.command? = some (.assign (.scalar target) value) ∧
      target.key = c.name ∧ value.constantNumber? = some c.value ∧
      definitionsOf c.name effects.toList = 1 := by
  obtain ⟨n, hn, h⟩ := List.mem_filterMap.1 h
  rw [constantAssignment?.eq_def] at h
  split at h
  next target value hc =>
    split at h
    next honce =>
      obtain ⟨v, hv, rfl⟩ := Option.map_eq_some_iff.1 h
      exact ⟨n, Array.mem_toList_iff.1 hn, target, value, hc, rfl, hv, honce.2⟩
    next => cases h
  next => cases h

end Constants

section Runs

variable {p : Program} {t : SymbolTable} {name : String} {v : Float}

/-- The statement that gives a constant scalar its value. -/
theorem exists_placed_of_programConstants
    (h : (programConstants (Graph.build p) ((Graph.build p).effects t))[name]? = some v) :
    ∃ q ∈ p.placed, ∃ target value, q.statement.command? = some (.assign (.scalar target) value) ∧
      target.key = name ∧ value.constantNumber? = some v ∧
      ∀ id, WritesAt ((Graph.build p).effects t) id name → id = q.id := by
  obtain ⟨c, hc, rfl, rfl⟩ := exists_mem_constantAssignments h
  obtain ⟨n, hn, target, value, hassign, hname, hvalue, honce⟩ :=
    exists_node_of_mem_constantAssignments hc
  have hfx := (Graph.wellFormed_build p).getElem?_effects_of_command hn hassign t
  have writes : WritesAt ((Graph.build p).effects t) n.id c.name :=
    ⟨_, hfx, hname ▸ List.mem_singleton_self _⟩
  obtain ⟨q, hq, hid, body, hbody, -⟩ := Graph.exists_command_of_writesAt writes
  have hnode := Graph.node?_build_of_mem_placed hq
  rw [hid, (Graph.wellFormed_build p).node?_id hn] at hnode
  obtain rfl := Option.some.inj hnode
  exact ⟨q, hq, target, value, hassign, hname, hvalue, fun id hid => eq_of_writesAt honce hid writes⟩

/-- One step keeps the value of a constant scalar, and the step of its assignment gives it. -/
theorem memory_of_executes
    (hconstant : (programConstants (Graph.build p) ((Graph.build p).effects t))[name]? = some v)
    {s s' : MachineState Float} (hstep : Executes p t s s')
    (h : WritesAt ((Graph.build p).effects t) s.control.1 name ∨ s.memory name = .number v) :
    s'.memory name = .number v := by
  obtain ⟨q, hq, target, value, hassign, rfl, hvalue, honly⟩ :=
    exists_placed_of_programConstants hconstant
  by_cases hwrites : WritesAt ((Graph.build p).effects t) s.control.1 target.key
  · have denotes := hstep.assigns q hq (honly _ hwrites).symm target value hassign
    have unknown : ∀ key n, (none : Option Float) = some n → s.memory key = .number n := nofun
    exact Expr.eq_of_denotes unknown (Expr.evaluate?_of_constantNumber? hvalue _) denotes
  · rw [hstep.keeps _ hwrites]
    exact h.resolve_left hwrites

/-- On a run, a constant scalar has its value once its assignment is in the past. -/
theorem memory_of_constantAssignment
    (hconstant : (programConstants (Graph.build p) ((Graph.build p).effects t))[name]? = some v)
    {start : MachineState Float} {run : List (MachineState Float)}
    (h : History (Executes p t) start run) :
    ∀ s past, run = s :: past →
      (∃ d ∈ past, WritesAt ((Graph.build p).effects t) d.control.1 name) →
      s.memory name = .number v := by
  induction h with
  | start =>
    rintro s past hrun ⟨d, hd, -⟩
    obtain ⟨-, rfl⟩ := List.cons.inj hrun
    cases hd
  | @step s s' past hpast hstep ih =>
    rintro _ _ hrun ⟨d, hd, hwrites⟩
    obtain ⟨rfl, rfl⟩ := List.cons.inj hrun
    apply memory_of_executes hconstant hstep
    rcases List.mem_cons.1 hd with rfl | hd
    · exact .inl hwrites
    · exact .inr (ih s past rfl ⟨d, hd, hwrites⟩)

/-- What is definitely assigned at a node is written on every run that leads to it. -/
theorem exists_writesAt_of_mem_before {id : NodeId} {fact : AssignedSet}
    (hfact : ((definiteAssignment ((Graph.build p).effects t)).solve (Graph.build p)).before[id]? =
      some fact) (hname : name ∈ fact) {stack : List NodeId} {past : List Graph.StackState}
    (h : (Graph.build p).StackRun ((id, stack) :: past)) :
    ∃ d ∈ past, WritesAt ((Graph.build p).effects t) d.1 name := by
  by_contra! hunwritten
  obtain ⟨calls, past', hpath, hnodes⟩ := h.exists_contextPath_to (Graph.wellFormed_build p)
  have unwritten : ∀ d ∈ past', ¬ WritesAt ((Graph.build p).effects t) d.1 name := by
    intro d hd
    have hmem : d.1 ∈ past.map Prod.fst := hnodes ▸ List.mem_map_of_mem hd
    obtain ⟨d', hd', heq⟩ := List.mem_map.1 hmem
    exact heq ▸ hunwritten d' hd'
  obtain ⟨fact', hfact', hname'⟩ :=
    (not_mem_before_iff (Graph.wellFormed_build p)).2 ⟨calls, past', hpath, unwritten⟩
  obtain rfl := Option.some.inj (hfact.symm.trans hfact')
  exact hname' hname

end Runs

/-! ## Bounds -/

/-- On every run, with whatever values the scalars begin, the expression evaluates to the number
each time control reaches the node. -/
def EvaluatesAt (p : Program) (t : SymbolTable) (id : NodeId) (e : Expr Float) (c : Float) : Prop :=
  ∀ memory s past, History (Executes p t) ⟨(Graph.entry, []), memory⟩ (s :: past) →
    s.control.1 = id → e.evaluate? (fun key => (s.memory key).number?) = some (.number c)

variable {p : Program} {t : SymbolTable}

/-- A value that is known at a node is the value there on every run. -/
theorem evaluatesAt_of_constantAt? {id : NodeId} {e : Expr Float} {c : Float}
    (h : (LoopContext.ofGraph (Graph.build p) ((Graph.build p).effects t)).constantAt? id e =
      some c) : EvaluatesAt p t id e c := by
  rintro memory ⟨⟨_, stack⟩, memory'⟩ past hrun rfl
  obtain ⟨value, hvalue, hc⟩ := Option.bind_eq_some_iff.1 h
  obtain rfl := Value.number?_eq_some_iff.1 hc
  refine Expr.evaluate?_mono (fun name v hv => ?_) hvalue
  rw [Option.ite_none_right_eq_some] at hv
  obtain ⟨hassigned, hconstant⟩ := hv
  obtain ⟨fact, hfact, hname⟩ := (Option.any_eq_true ..).1 hassigned
  rw [Std.ExtTreeSet.contains_iff_mem] at hname
  obtain ⟨d, hd, hwrites⟩ :=
    exists_writesAt_of_mem_before hfact hname (stackRun_of_executes rfl hrun)
  obtain ⟨s, hs, rfl⟩ := List.mem_map.1 hd
  exact Value.number?_eq_some_iff.2
    (memory_of_constantAssignment hconstant hrun _ _ rfl ⟨s, hs, hwrites⟩)

/-- The summary is that of the loop, and the bounds that it gives as constants are the values of
their expressions whenever control is at the `FOR`. A step that is left out is 1. -/
def BoundsHold (p : Program) (t : SymbolTable) (l : ForLoop) (info : LoopSummary) : Prop :=
  ∃ f ∈ p.placed, f.id = l.forNode ∧ ∃ counter start stop step,
    f.statement.command? = some (.forLoop counter start stop step) ∧
    info = (LoopContext.ofGraph (Graph.build p) ((Graph.build p).effects t)).summary
      l start stop step ∧
    (∀ c, info.start = some c → EvaluatesAt p t f.id start c) ∧
    (∀ c, info.stop = some c → EvaluatesAt p t f.id stop c) ∧
    ∀ c, info.step = some c → step.elim (c = 1) fun e => EvaluatesAt p t f.id e c

theorem LoopContext.mem_summaries_iff {ctx : LoopContext} {info : LoopSummary} :
    info ∈ ctx.summaries ↔ ∃ l ∈ ctx.graph.forLoops, ctx.graph.isReachable l.forNode = true ∧
      ∃ counter start stop step,
        (ctx.graph.node? l.forNode).bind Node.command? = some (.forLoop counter start stop step) ∧
        info = ctx.summary l start stop step := by
  rw [summaries, List.mem_filterMap]
  refine exists_congr fun l => and_congr_right fun _ => ?_
  split
  next counter start stop step hc =>
    rw [Option.ite_none_right_eq_some, hc]
    constructor
    · rintro ⟨hreach, hinfo⟩
      exact ⟨hreach, counter, start, stop, step, rfl, (Option.some.inj hinfo).symm⟩
    · rintro ⟨hreach, _, _, _, _, hcommand, rfl⟩
      cases hcommand
      exact ⟨hreach, rfl⟩
  next hnone =>
    refine iff_of_false nofun ?_
    rintro ⟨-, counter, start, stop, step, hc, -⟩
    exact hnone counter start stop step hc

theorem boundsHold_summary {l : ForLoop} {counter : Name} {start stop : Expr Float}
    {step : Option (Expr Float)} (hl : l ∈ (Graph.build p).forLoops)
    (hc : ((Graph.build p).node? l.forNode).bind Node.command? =
      some (.forLoop counter start stop step)) :
    BoundsHold p t l ((LoopContext.ofGraph (Graph.build p) ((Graph.build p).effects t)).summary
      l start stop step) := by
  obtain ⟨f, hf, hid, -⟩ := Program.exists_for_of_mem_forLoops hl
  rw [← hid, Graph.node?_build_of_mem_placed hf] at hc
  refine ⟨f, hf, hid, counter, start, stop, step, hc, rfl, fun c hstart => ?_, fun c hstop => ?_,
    fun c hstep => ?_⟩
  · exact evaluatesAt_of_constantAt? (hid ▸ hstart)
  · exact evaluatesAt_of_constantAt? (hid ▸ hstop)
  · cases step with
    | none => exact (Option.some.inj hstep).symm
    | some e => exact evaluatesAt_of_constantAt? (hid ▸ hstep)

/--
Every reachable counted loop has a summary, and every summary is that of a counted loop. Wherever it
gives the start, the end or the step of the loop as a constant, the expression of the `FOR`
evaluates to that constant each time a run reaches the `FOR`.
-/
theorem constantBounds_hold (p : Program) (t : SymbolTable) :
    (∀ l ∈ (Graph.build p).forLoops, (Graph.build p).isReachable l.forNode = true →
      ∃ info ∈ analyzeLoops (Graph.build p) ((Graph.build p).effects t), BoundsHold p t l info) ∧
    ∀ info ∈ analyzeLoops (Graph.build p) ((Graph.build p).effects t),
      ∃ l ∈ (Graph.build p).forLoops, (Graph.build p).isReachable l.forNode = true ∧
        BoundsHold p t l info := by
  constructor
  · intro l hl hreach
    obtain ⟨f, hf, hid, c, hc, counter, start, stop, step, rfl, -⟩ :=
      Program.exists_for_of_mem_forLoops hl
    have command : ((Graph.build p).node? l.forNode).bind Node.command? =
        some (.forLoop counter start stop step) := by
      rw [← hid, Graph.node?_build_of_mem_placed hf]
      exact hc
    refine ⟨_, ?_, boundsHold_summary hl command⟩
    rw [analyzeLoops, LoopSummary.sort, List.mem_mergeSort, LoopContext.mem_summaries_iff]
    exact ⟨l, hl, hreach, counter, start, stop, step, command, rfl⟩
  · intro info hinfo
    rw [analyzeLoops, LoopSummary.sort, List.mem_mergeSort,
      LoopContext.mem_summaries_iff] at hinfo
    obtain ⟨l, hl, hreach, counter, start, stop, step, hc, rfl⟩ := hinfo
    exact ⟨l, hl, hreach, boundsHold_summary hl hc⟩

/-! ## A bound that is assigned before the loop -/

namespace SampleBound

/-- The assignment `N = 20`. -/
def assignment : Statement := .command ⟨10, 4⟩ (.assign (.scalar ⟨"N"⟩) (.number 20 "20"))

/-- An assignment to `N` and a loop that runs up to `N`. -/
def program : Program :=
  ⟨[⟨10, [assignment], 1⟩,
    ⟨20, [.command ⟨20, 4⟩ (.forLoop ⟨"I"⟩ (.number 1 "1") (.scalar ⟨"N"⟩) none)], 2⟩,
    ⟨30, [.command ⟨30, 4⟩ (.next [⟨"I"⟩])], 3⟩]⟩

def table : SymbolTable := (SymbolTable.build program).table

def effects : Array Effects := (Graph.build program).effects table

/-- All scalars are zero. -/
def zeros : Memory Float := fun _ => .number 0

/-- Only `N` is not zero. -/
def assigned : Memory Float := Function.update zeros (Name.key ⟨"N"⟩) (.number 20)

/-- The run from the entry to the `FOR`. -/
theorem history_assigned :
    History (Executes program table) ⟨(Graph.entry, []), zeros⟩
      [⟨(3, []), assigned⟩, ⟨(2, []), zeros⟩, ⟨(Graph.entry, []), zeros⟩] := by
  have toFirst := Graph.stackStep_of_normal program
    (show (2, .normal) ∈ (Graph.build program).successors Graph.entry by decide +kernel) []
  have toSecond := Graph.stackStep_of_normal program
    (show (3, .normal) ∈ (Graph.build program).successors 2 by decide +kernel) []
  have denotes : (Expr.number 20 "20").Denotes zeros (.number 20) :=
    ⟨20, rfl, rfl, by decide +kernel⟩
  have first : ⟨assignment, 2, 0, 3⟩ ∈ program.placed := List.mem_cons_self
  exact (History.start.step (executes_entry zeros toFirst)).step
    (executes_assign first rfl toSecond denotes)

end SampleBound

open SampleBound in
/-- The end of the loop is given as a constant, and on the run that assigns it and reaches the `FOR`
it evaluates to that constant. -/
theorem exists_constantBound_assigned :
    ∃ info ∈ analyzeLoops (Graph.build program) effects, ∃ c, info.stop = some c ∧
      History (Executes program table) ⟨(Graph.entry, []), zeros⟩
        [⟨(3, []), assigned⟩, ⟨(2, []), zeros⟩, ⟨(Graph.entry, []), zeros⟩] ∧
      (Expr.scalar ⟨"N"⟩).evaluate? (fun key => (assigned key).number?) = some (.number c) := by
  have found : ((analyzeLoops (Graph.build program) effects).any fun info =>
      info.stop.isSome) = true := by
    decide +kernel
  obtain ⟨info, hinfo, hstop⟩ := List.any_eq_true.1 found
  obtain ⟨c, hc⟩ := Option.isSome_iff_exists.1 hstop
  refine ⟨info, hinfo, c, hc, history_assigned, ?_⟩
  obtain ⟨l, hl, -, f, hf, hid, counter, start, stop, step, hfor, -, -, holds, -⟩ :=
    (constantBounds_hold program table).2 info hinfo
  have hloop : l = ⟨3, 4, "I"⟩ := by
    have loops : (Graph.build program).forLoops = [⟨3, 4, "I"⟩] := by decide +kernel
    exact List.mem_singleton.1 (loops ▸ hl)
  subst hloop
  have second : ⟨.command ⟨20, 4⟩ (.forLoop ⟨"I"⟩ (.number 1 "1") (.scalar ⟨"N"⟩) none), 3, 0, 4⟩ ∈
      program.placed := List.mem_cons_of_mem _ List.mem_cons_self
  obtain rfl := Program.eq_of_id_eq hf second hid
  cases hfor
  exact holds c hc zeros _ _ history_assigned rfl

end LineBasic
