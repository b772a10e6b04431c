import LineBasic.Proofs.Flow.ReachingDefinitions
import LineBasic.Symbol.Build

/-!
# Use counts and dead stores

An assignment is charged with a read if and only if some path under call strings carries its value
there (`Substitution.readers_eq`): the path goes through the assignment, then to the read, and
nothing between them writes the scalar. So the lines of the uses are exact, and no run reads what a
dead store has assigned (`findSubstitutions_exact`).
-/

namespace LineBasic

variable {effects : Array Effects} {g : Graph} {d r : NodeId} {name : String}

/-- The reads of a scalar at a node. -/
def readsOf (effects : Array Effects) (id : NodeId) (name : String) : List VarUse :=
  (effects[id]?).elim [] fun fx => fx.uses.filter fun u => u.name == name

/-- The nodes, the latest of which is the first, have come past `d` and not written the scalar
since. -/
def HoldsSince (effects : Array Effects) (nodes : List NodeId) (name : String) (d : NodeId) :
    Prop :=
  ∃ since before, nodes = since ++ d :: before ∧ ∀ m ∈ since, ¬ WritesAt effects m name

theorem holdsSince_cons_self (nodes : List NodeId) : HoldsSince effects (d :: nodes) name d :=
  ⟨[], nodes, rfl, List.forall_mem_nil _⟩

theorem HoldsSince.cons {nodes : List NodeId} (h : HoldsSince effects nodes name d)
    (hr : ¬ WritesAt effects r name) : HoldsSince effects (r :: nodes) name d := by
  obtain ⟨since, before, rfl, hsince⟩ := h
  exact ⟨r :: since, before, rfl, List.forall_mem_cons.2 ⟨hr, hsince⟩⟩

/-- Some path under call strings goes through `d` and later to `r`, and no node strictly between
them writes the scalar. -/
def Graph.Carries (g : Graph) (effects : Array Effects) (name : String) (d r : NodeId) : Prop :=
  ∃ calls past, g.ContextPath ((r, calls) :: past) ∧
    HoldsSince effects (past.map Prod.fst) name d

theorem lastWriter_iff_holdsSince (hd : WritesAt effects d name) {nodes : List NodeId} :
    LastWriter effects nodes name d ↔ HoldsSince effects nodes name d := by
  constructor
  · rintro ⟨since, before, hnodes, -, hsince⟩
    exact ⟨since, before, hnodes, hsince⟩
  · rintro ⟨since, before, hnodes, hsince⟩
    exact ⟨since, before, hnodes, hd, hsince⟩

theorem readsAt_iff_readsOf_ne_nil : ReadsAt effects r name ↔ readsOf effects r name ≠ [] := by
  rw [ReadsAt, readsOf]
  rcases effects[r]? with _ | fx <;> simp [List.filter_eq_nil_iff]

/-- A definition is in the fact of a node if and only if some path carries it there. -/
theorem mem_before_iff_carries (hg : g.WellFormed) (hd : WritesAt effects d name)
    {fact : DefinitionSet}
    (hfact : ((reachingDefinitions effects).solve g).before[r]? = some fact) :
    (name, d) ∈ fact ↔ g.Carries effects name d r := by
  rw [mem_before_iff hg hfact]
  simp only [lastWriter_iff_holdsSince hd]
  rfl

/-- What a run carries to a node, some path under call strings carries there. -/
theorem Graph.carries_of_stackRun (hg : g.WellFormed) {stack : List NodeId}
    {past : List Graph.StackState} (hrun : g.StackRun ((r, stack) :: past))
    (hpast : HoldsSince effects (past.map Prod.fst) name d) : g.Carries effects name d r := by
  obtain ⟨calls, past', hpath, heq⟩ := hrun.exists_contextPath_to hg
  exact ⟨calls, past', hpath, heq ▸ hpast⟩

namespace Substitution

open scoped Classical in
/-- Each node that a path carries the assignment to is charged once for each of its reads. -/
theorem readers_eq (hg : g.WellFormed) (hd : WritesAt effects d name) :
    readers g effects ((reachingDefinitions effects).solve g) d name =
      g.nodes.toList.flatMap fun r =>
        if g.Carries effects name d r.id then
          List.replicate (readsOf effects r.id name).length r.id
        else [] := by
  rw [readers]
  refine List.flatMap_congr fun r _ => ?_
  have reached := (bounded_reachingDefinitions effects).isSome_before_iff (n := r.id)
    (lawful_reachingDefinitions effects) hg
  rcases hfact : ((reachingDefinitions effects).solve g).before[r.id]? with _ | fact
  · -- No path leads to the node.
    have hcarries : ¬ g.Carries effects name d r.id := by
      rintro ⟨calls, past, hpath, -⟩
      have hsome := reached.2 ⟨calls, past, hpath⟩
      rw [hfact] at hsome
      cases hsome
    rw [if_neg hcarries]
  · have hmem := mem_before_iff_carries hg hd hfact
    rw [readsOf]
    rcases effects[r.id]? with _ | fx
    · simp
    · by_cases hcarries : g.Carries effects name d r.id
      · have hcontains : fact.contains (name, d) = true :=
          Std.ExtTreeSet.contains_iff_mem.2 (hmem.2 hcarries)
        simp only [hcontains, hcarries, Bool.and_true, if_true, Option.elim_some, List.map_const']
      · have hnot : (name, d) ∉ fact := fun h => hcarries (hmem.1 h)
        simp [hcarries, hnot]

/-- A node that reads what a path carries to it is charged to the assignment. -/
theorem mem_readers_of_carries {t : SymbolTable} (hg : g.WellFormed)
    (hd : WritesAt (g.effects t) d name) (hcarries : g.Carries (g.effects t) name d r)
    (hreads : ReadsAt (g.effects t) r name) :
    r ∈ readers g (g.effects t) ((reachingDefinitions (g.effects t)).solve g) d name := by
  have hnonempty : (readsOf (g.effects t) r name).length ≠ 0 := fun hzero =>
    readsAt_iff_readsOf_ne_nil.1 hreads (List.length_eq_zero_iff.1 hzero)
  obtain ⟨fx, hfx, -⟩ := hreads
  rw [Graph.getElem?_effects, Option.map_eq_some_iff] at hfx
  obtain ⟨n, hn, -⟩ := hfx
  rw [readers_eq hg hd, List.mem_flatMap]
  refine ⟨n, Array.mem_toList_iff.2 (Array.mem_of_getElem? hn), ?_⟩
  rw [hg.id_eq hn, if_pos hcarries, List.mem_replicate]
  exact ⟨hnonempty, rfl⟩

theorem exists_of_mem_ofSolution {solution : Solution DefinitionSet} {s : Substitution}
    (hs : s ∈ ofSolution g effects solution) :
    ∃ n ∈ g.nodes, ∃ v value, n.command? = some (.assign (.scalar v) value) ∧ s.line = n.line ∧
      s.name = v.key ∧ s.useLines = (readers g effects solution n.id v.key).map g.lineOf ∧
      (s.isDeadStore = true → readers g effects solution n.id v.key = []) := by
  obtain ⟨n, hn, hs⟩ := List.mem_filterMap.1 hs
  obtain ⟨v, value, atDefinition, hcommand, -, -, rfl⟩ := ofNode?_eq_some_iff.1 hs
  refine ⟨n, Array.mem_toList_iff.1 hn, v, value, hcommand, rfl, rfl, rfl, fun hdead => ?_⟩
  rw [ofDefinitions, Bool.and_eq_true, List.isEmpty_iff] at hdead
  exact hdead.1

end Substitution

theorem writesAt_of_assign (hg : g.WellFormed) {n : Node} (hn : n ∈ g.nodes) {v : Name}
    {value : Expr Float} (hc : n.command? = some (.assign (.scalar v) value)) (t : SymbolTable) :
    WritesAt (g.effects t) n.id v.key :=
  ⟨_, hg.getElem?_effects_of_command hn hc t, List.mem_singleton_self _⟩

open scoped Classical in
/--
The uses of an assignment have the lines of the nodes that some path carries its value to, each line
once for every read of the scalar at the node. No run reads the value of a dead store before the
scalar is written again.
-/
theorem findSubstitutions_exact (p : Program) (t : SymbolTable) :
    let g := Graph.build p
    let effects := g.effects t
    ∀ s ∈ findSubstitutions g effects, ∃ n ∈ g.nodes, ∃ v value,
      n.command? = some (.assign (.scalar v) value) ∧ s.line = n.line ∧ s.name = v.key ∧
      (s.useLines = g.nodes.toList.flatMap fun r =>
        if g.Carries effects v.key n.id r.id then
          List.replicate (readsOf effects r.id v.key).length r.line
        else []) ∧
      (s.isDeadStore = true → ∀ r stack past, g.StackRun ((r, stack) :: past) →
        HoldsSince effects (past.map Prod.fst) v.key n.id → ¬ ReadsAt effects r v.key) := by
  intro g effects s hs
  have hg : g.WellFormed := Graph.wellFormed_build p
  obtain ⟨n, hn, v, value, hc, hline, hname, huses, hdead⟩ :=
    Substitution.exists_of_mem_ofSolution hs
  have hreaders := Substitution.readers_eq hg (writesAt_of_assign hg hn hc t)
  refine ⟨n, hn, v, value, hc, hline, hname, ?_, fun h r stack past hrun hsince hreads => ?_⟩
  · rw [huses, hreaders, List.map_flatMap]
    refine List.flatMap_congr fun r hr => ?_
    have hlineOf : g.lineOf r.id = r.line := by
      rw [Graph.lineOf, hg.node?_id (Array.mem_toList_iff.1 hr), Option.elim_some]
    split
    · rw [List.map_replicate, hlineOf]
    · rfl
  · have hcarries := Graph.carries_of_stackRun hg hrun hsince
    have hnode : ∃ m, g.node? r = some m := by
      obtain ⟨fx, hfx, -⟩ := hreads
      rw [Graph.getElem?_effects, Option.map_eq_some_iff] at hfx
      exact hfx.imp fun _ => And.left
    obtain ⟨m, hm⟩ := hnode
    have hid : m.id = r := hg.id_eq hm
    have hcharged : r ∈ Substitution.readers g effects ((reachingDefinitions effects).solve g)
        n.id v.key := by
      rw [hreaders, List.mem_flatMap]
      refine ⟨m, Array.mem_toList_iff.2 (Array.mem_of_getElem? hm), ?_⟩
      rw [hid, if_pos hcarries, List.mem_replicate]
      exact ⟨fun hzero => readsAt_iff_readsOf_ne_nil.1 hreads (List.length_eq_zero_iff.1 hzero),
        rfl⟩
    rw [hdead h] at hcharged
    cases hcharged

namespace SharedSubroutine

/-- `T` is assigned before each of two calls of a subroutine, and read after the second one. -/
def program : Program :=
  let commands : List (Nat × Command) :=
    [(10, .input none none [.scalar ⟨"A"⟩, .scalar ⟨"B"⟩]),
      (20, .assign (.scalar ⟨"T"⟩) (.binary .add (.scalar ⟨"A"⟩) (.scalar ⟨"B"⟩))),
      (30, .gosub 100),
      (40, .assign (.scalar ⟨"T"⟩) (.binary .mul (.scalar ⟨"A"⟩) (.scalar ⟨"B"⟩))),
      (50, .gosub 100), (60, .print none [.expr (.scalar ⟨"T"⟩)]), (70, .endRun),
      (100, .print none [.expr (.scalar ⟨"A"⟩)]), (110, .returnSub)]
  ⟨commands.zipIdx.map fun ((line, c), i) => ⟨line, [.command ⟨line, 4⟩ c], i + 1⟩⟩

def graph : Graph := .build program

def table : SymbolTable := (SymbolTable.build program).table

end SharedSubroutine

open SharedSubroutine in
/-- The first value of `T` is dead, although the subroutine also returns to where `T` is read. -/
theorem exists_deadStore_sharedSubroutine :
    ∃ s ∈ findSubstitutions graph (graph.effects table), s.line = 20 ∧ s.isDeadStore = true ∧
      ∀ r stack past, graph.StackRun ((r, stack) :: past) →
        HoldsSince (graph.effects table) (past.map Prod.fst) "T" 3 →
        ¬ ReadsAt (graph.effects table) r "T" := by
  have found : (findSubstitutions graph (graph.effects table)).any
      (fun s => s.line == 20 && s.isDeadStore) = true := by decide +kernel
  obtain ⟨s, hs, hfound⟩ := List.any_eq_true.1 found
  rw [Bool.and_eq_true, beq_iff_eq] at hfound
  obtain ⟨n, hn, v, value, hc, hline, -, -, hdead⟩ := findSubstitutions_exact program table s hs
  have onLine : ∀ m ∈ graph.nodes.toList, m.line = 20 → m.id = 3 := by decide +kernel
  have hid : n.id = 3 := onLine n (Array.mem_toList_iff.2 hn) (hline.symm.trans hfound.1)
  have hcommand : (graph.node? 3).bind Node.command? =
      some (.assign (.scalar ⟨"T"⟩) (.binary .add (.scalar ⟨"A"⟩) (.scalar ⟨"B"⟩))) := rfl
  have hnode : graph.node? n.id = some n := (Graph.wellFormed_build program).node?_id hn
  rw [← hid, hnode, Option.bind_some, hc] at hcommand
  obtain ⟨⟨rfl⟩, -⟩ := Command.assign.inj (Option.some.inj hcommand)
  have hkey : Name.key ⟨"T"⟩ = "T" := by decide +kernel
  rw [hid, hkey] at hdead
  exact ⟨s, hs, hfound.1, hfound.2, hdead hfound.2⟩

end LineBasic
