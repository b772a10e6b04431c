import LineBasic.Proofs.Flow.Expansion
import LineBasic.Proofs.Flow.Reachable
import LineBasic.Proofs.Graph.Shape

/-!
# Only reachable nodes have facts

The solver visits nodes under call strings that paths lead to, whatever the facts are, and where a
`RETURN` goes back to there is an edge of its own. So every node with a fact is reachable
(`Graph.isReachable_of_fact`), and with this the shape of a graph is complete
(`Graph.depicts_build`).
-/

namespace LineBasic

/-! ## Nodes that are visited -/

namespace Graph

/-- A path under call strings stays among the reachable nodes. -/
theorem isReachable_of_contextPath {p : Program} {c : ContextNode} {past : List ContextNode}
    (h : (build p).ContextPath (c :: past)) : (build p).isReachable c.1 = true := by
  obtain ⟨hentry, hclosed⟩ := closed_reachable p
  generalize hpath : c :: past = path at h
  induction h generalizing c past with
  | start =>
    obtain ⟨rfl, -⟩ := List.cons.inj hpath
    exact hentry
  | @step s t earlier hs hst ih =>
    obtain ⟨rfl, -⟩ := List.cons.inj hpath
    have hreachable : (build p).isReachable s.1 = true := ih rfl
    have hcalled := calledFrom_of_contextPath hs
    obtain ⟨id, calls⟩ := s
    rcases hst.return_or_edge with ⟨site, outer, hr, rfl, rfl⟩ | ⟨-, kind, ht, -⟩
    · -- the place after the call is among those that the `RETURN` has edges to
      obtain ⟨target, hcall⟩ := hcalled site List.mem_cons_self
      exact hclosed _ _ _ hreachable ((wellFormed_build p).back_of_call hr hcall)
    · exact hclosed _ _ _ hreachable ht

end Graph

namespace ForwardAnalysis

variable {φ : Type} [BEq φ] {a : ForwardAnalysis φ} {g : Graph} {s : SolverState φ}
  {P : ContextNode → Prop} {n : NodeId}

/-- All nodes that have facts are of a kind. -/
structure FactsWithin (P : ContextNode → Prop) (s : SolverState φ) : Prop where
  inputs : ∀ k ∈ s.inputs, P k
  outputs : ∀ k ∈ s.outputs, P k

theorem FactsWithin.flow (h : FactsWithin P s) {t : ContextNode} (ht : P t) (output : φ) :
    FactsWithin P (a.flow output s t) := by
  rw [ForwardAnalysis.flow]
  split
  · exact h
  · refine ⟨fun k hk => ?_, h.outputs⟩
    rw [Std.ExtTreeMap.mem_insert] at hk
    rcases hk with hk | hk
    · rwa [← Std.compare_eq_iff_eq.1 hk]
    · exact h.inputs k hk

/-- A visit passes facts on along steps only. -/
theorem FactsWithin.visit (hstep : ∀ k t, P k → g.ContextStep k t → P t)
    (h : FactsWithin P s) (key : ContextNode) : FactsWithin P (a.visit g key s) := by
  rw [ForwardAnalysis.visit]
  dsimp only
  split
  · exact ⟨h.inputs, h.outputs⟩
  next input hinput =>
    have hkey : P key := h.inputs key (Std.ExtTreeMap.mem_iff_isSome_getElem?.2 (by simp [hinput]))
    split
    · exact ⟨h.inputs, h.outputs⟩
    · have hflow : FactsWithin P ((g.contextSuccessors key).foldl
          (a.flow (a.transfer key.1 input)) { s with visits := s.visits + 1 }) :=
        List.foldlRecOn _ _ ⟨h.inputs, h.outputs⟩ fun s' hs' t ht => hs'.flow (hstep key t hkey ht) _
      refine ⟨hflow.inputs, fun k hk => ?_⟩
      rw [Std.ExtTreeMap.mem_insert] at hk
      rcases hk with hk | hk
      · rwa [← Std.compare_eq_iff_eq.1 hk]
      · exact hflow.outputs k hk

theorem FactsWithin.iterate (hstep : ∀ k t, P k → g.ContextStep k t → P t) (count : Nat)
    (h : FactsWithin P s) : FactsWithin P (a.iterate g count s) := by
  induction count generalizing s with
  | zero => exact h
  | succ count ih =>
    rw [ForwardAnalysis.iterate]
    split
    · exact h
    next key rest hqueue =>
      have hrest : FactsWithin P { s with queue := rest } := ⟨h.inputs, h.outputs⟩
      exact ih (hrest.visit hstep key)

/-- Facts are only found where paths lead. -/
theorem factsWithin_fixpoint (a : ForwardAnalysis φ) (g : Graph) :
    FactsWithin (fun c => ∃ past, g.ContextPath (c :: past)) (a.fixpoint g) := by
  refine FactsWithin.iterate (fun _ _ ⟨past, hpath⟩ hkt => ⟨_, hpath.step hkt⟩) _ ⟨fun k hk => ?_, ?_⟩
  · obtain rfl : (Graph.entry, []) = k := by simpa [start] using hk
    exact ⟨[], .start⟩
  · simp [start]

theorem exists_contextPath_of_fact
    (h : (a.solve g).before[n]?.isSome ∨ (a.solve g).after[n]?.isSome) :
    ∃ calls past, g.ContextPath ((n, calls) :: past) := by
  have within := a.factsWithin_fixpoint g
  rcases h with h | h
  · obtain ⟨calls, I, hI⟩ := isSome_overContexts _ |>.1 h
    exact ⟨calls, within.inputs _ (Std.ExtTreeMap.mem_iff_isSome_getElem?.2 (by simp [hI]))⟩
  · obtain ⟨calls, I, hI⟩ := isSome_overContexts _ |>.1 h
    exact ⟨calls, within.outputs _ (Std.ExtTreeMap.mem_iff_isSome_getElem?.2 (by simp [hI]))⟩

end ForwardAnalysis

namespace Graph

/-- A node with a fact, before or after it, is reachable. -/
theorem isReachable_of_fact {φ : Type} [BEq φ] (a : ForwardAnalysis φ) {p : Program} {n : NodeId}
    (h : (a.solve (build p)).before[n]?.isSome ∨ (a.solve (build p)).after[n]?.isSome) :
    (build p).isReachable n = true := by
  obtain ⟨calls, past, hpath⟩ := ForwardAnalysis.exists_contextPath_of_fact h
  exact isReachable_of_contextPath hpath

/-- The shape that the graph of a program has. -/
structure Depicts (g : Graph) (p : Program) : Prop where
  ids : g.nodes.toList.map Node.id = List.range g.size
  /-- The entry, the exit, and one node for every statement, in the order of the text. -/
  statements : g.nodes.toList.map (fun n => (n.statement, n.depth)) =
    (none, 0) :: (none, 0) :: p.occurrences.map fun o => (some o.1, o.2)
  nodup : ∀ {i n}, g.node? i = some n → n.successors.Nodup ∧ n.predecessors.Nodup
  target_lt : ∀ {i t kind}, (t, kind) ∈ g.successors i → t < g.size
  source_lt : ∀ {i j n}, g.node? j = some n → i ∈ n.predecessors → i < g.size
  mirrored : ∀ {i j n m}, g.node? i = some n → g.node? j = some m →
    ((∃ kind, (j, kind) ∈ n.successors) ↔ i ∈ m.predecessors)
  predecessors_entry : ∀ {n}, g.node? entry = some n → n.predecessors = []
  successors_exit : ∀ {n}, g.node? exit = some n → n.successors = []
  successors_ne_nil : ∀ {i n}, g.node? i = some n → i ≠ exit → n.successors ≠ []
  lineEntry? : (p.lines.Pairwise fun a b => a.number < b.number) → ∀ l ∈ p.lines,
    ∃ node, g.lineEntry? l.number = some node ∧ FirstFrom p.lines 2 l.number node
  reachable : ∀ {φ : Type} [BEq φ] (a : ForwardAnalysis φ) {n : NodeId},
    (a.solve g).before[n]?.isSome ∨ (a.solve g).after[n]?.isSome → g.isReachable n = true

theorem depicts_build (p : Program) : (build p).Depicts p where
  ids := map_id_nodes p
  statements := map_statement_nodes p
  nodup h := ⟨nodup_successors h, nodup_predecessors h⟩
  target_lt := (wellFormed_build p).target_lt
  source_lt hj hi := by
    obtain ⟨kind, he⟩ := (predecessors_of_node?_build hj).1 hi
    rw [size_build]
    rcases (Program.soundEdge_of_mem_edges he).source with hs | ⟨q, hq, hs⟩
    · exact Nat.lt_of_le_of_lt (Nat.le_of_eq hs) (Nat.lt_add_right _ Nat.two_pos)
    · exact Nat.lt_of_le_of_lt (Nat.le_of_eq hs.symm) (Program.id_lt_nodeCount hq)
  mirrored hn hm := (mem_predecessors_iff hn hm).symm
  predecessors_entry := predecessors_entry
  successors_exit := successors_exit
  successors_ne_nil := successors_ne_nil
  lineEntry? h _ hl := Program.exists_lineEntry? h hl
  reachable a _ h := isReachable_of_fact a h

end Graph
end LineBasic
