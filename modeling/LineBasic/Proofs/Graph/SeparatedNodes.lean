import Mathlib.Data.List.Flatten
import LineBasic.Proofs.Graph.Separation
import LineBasic.Proofs.Graph.WellFormed

/-!
# Nodes of separate `NEXT` statements

The nodes of the graph with separate `NEXT` statements come in rows, one for each node of the graph
of the program (`Program.exists_nodeRows`). So what is listed node by node can be compared row by
row (`Program.flatMap_nodes_separateNexts`, `Program.sublist_flatMap_nodes_separateNexts`).
-/

namespace LineBasic
namespace Program

variable {p : Program}

/-- A node is the first of those that stand for another one. -/
structure IsHeadOf (p : Program) (n' n : Node) : Prop where
  id_eq : n'.id = p.headOf n.id
  line_eq : n'.line = n.line
  command : n'.command? = n.command? ∨
    (∃ counters, n'.command? = some (.next counters)) ∧
      ∃ counters, n.command? = some (.next counters)

theorem IsHeadOf.assign_iff {n n' : Node} (h : p.IsHeadOf n' n) {target : Target Float}
    {value : Expr Float} :
    n'.command? = some (.assign target value) ↔ n.command? = some (.assign target value) := by
  rcases h.command with heq | ⟨⟨_, hc'⟩, _, hc⟩
  · rw [heq]
  · simp [hc', hc]

/-- A node of the program with the row of the nodes that stand for it. -/
structure NodeRow (p : Program) where
  node : Node
  first : Node
  later : List Node
  isHeadOf : p.IsHeadOf first node
  inner : ∀ n' ∈ later, p.InnerNode node.id n'.id
  next : ∀ n' ∈ later, ∃ counters, n'.command? = some (.next counters)

/-- The nodes that stand for the node. -/
def NodeRow.nodes (r : p.NodeRow) : List Node := r.first :: r.later

/-- The row of the entry or of the exit. -/
def endRow (p : Program) (id : NodeId) (line : Nat) (h : id = p.headOf id) : p.NodeRow where
  node := Node.ofEdges p.edges id none line 0 Graph.exit
  first := Node.ofEdges p.separateNexts.edges id none line 0 Graph.exit
  later := []
  isHeadOf := ⟨h, rfl, .inl rfl⟩
  inner := List.forall_mem_nil _
  next := List.forall_mem_nil _

/-- The first of the statements that stand for a statement has its place, its line and, unless it is
a `NEXT`, its command. -/
theorem isHeadOf_of_separated {q : Placed} {first : Placed} {later : List Placed}
    (h : q.separated p.headOf = first :: later) :
    p.IsHeadOf (first.node p.separateNexts.edges) (q.node p.edges) := by
  obtain ⟨s', rest, hs⟩ := List.exists_cons_of_length_pos q.statement.length_separated_pos
  rw [Placed.separated, hs, placedRow] at h
  obtain ⟨rfl, -⟩ := List.cons.inj h
  have hmem : s' ∈ q.statement.separated := hs ▸ List.mem_cons_self
  refine ⟨rfl, Statement.line_of_mem_separated hmem, ?_⟩
  by_cases hnext : ∃ counters, q.statement.command? = some (.next counters)
  · obtain ⟨counters, hc⟩ := hnext
    exact .inr ⟨Statement.command?_of_mem_separated hc hmem, counters, hc⟩
  · push Not at hnext
    obtain ⟨s'', hs'', hc⟩ := Statement.exists_separated_eq hnext
    obtain rfl : s' = s'' := (List.cons.inj (hs.symm.trans hs'')).1
    exact .inl hc

/-- Those after the first are `NEXT` statements. -/
theorem innerNode_of_separated {q first q' : Placed} {later : List Placed} (hq : q ∈ p.placed)
    (h : q.separated p.headOf = first :: later) (hq' : q' ∈ later) :
    p.InnerNode q.id q'.id ∧ ∃ counters, q'.statement.command? = some (.next counters) := by
  obtain ⟨s', rest, hs⟩ := List.exists_cons_of_length_pos q.statement.length_separated_pos
  rw [Placed.separated, hs, placedRow] at h
  obtain ⟨-, rfl⟩ := List.cons.inj h
  obtain ⟨i, hi, hid, -⟩ := mem_placedRow_iff.1 hq'
  have hlt : i + 1 < q.statement.separated.length := by
    rw [hs, List.length_cons]
    exact Nat.succ_lt_succ (List.getElem?_eq_some_iff.1 hi).1
  rw [Nat.add_assoc, Nat.add_comm 1] at hid
  have hinner : p.InnerNode q.id q'.id :=
    ⟨hid ▸ (standsFor_add_iff hq).2 hlt, hid ▸ Nat.ne_of_gt (Nat.lt_add_of_pos_right i.succ_pos)⟩
  obtain ⟨counters, hc⟩ := exists_next_of_innerNode hq hinner
  have hmem : q'.statement ∈ q.statement.separated :=
    hs ▸ List.mem_cons_of_mem _ (List.mem_of_getElem? hi)
  exact ⟨hinner, Statement.command?_of_mem_separated hc hmem⟩

theorem exists_nodeRow {q : Placed} (hq : q ∈ p.placed) :
    ∃ r : p.NodeRow, r.node = q.node p.edges ∧
      r.nodes = (q.separated p.headOf).map (Placed.node p.separateNexts.edges) := by
  have hlength : 0 < (q.separated p.headOf).length := by
    obtain ⟨s', rest, hs⟩ := List.exists_cons_of_length_pos q.statement.length_separated_pos
    rw [Placed.separated, hs]
    exact Nat.succ_pos _
  obtain ⟨first, later, h⟩ := List.exists_cons_of_length_pos hlength
  refine ⟨⟨q.node p.edges, first.node p.separateNexts.edges,
    later.map (Placed.node p.separateNexts.edges), isHeadOf_of_separated h, ?_, ?_⟩, rfl, ?_⟩
  · exact List.forall_mem_map.2 fun q' hq' => (innerNode_of_separated hq h hq').1
  · exact List.forall_mem_map.2 fun q' hq' => (innerNode_of_separated hq h hq').2
  · rw [h]
    rfl

/-- The nodes of both graphs, row by row. -/
theorem exists_nodeRows (p : Program) : ∃ rows : List p.NodeRow,
    (Graph.build p).nodes.toList = rows.map NodeRow.node ∧
      (Graph.build p.separateNexts).nodes.toList = rows.flatMap NodeRow.nodes := by
  have statements (placed : List Placed) (h : ∀ q ∈ placed, q ∈ p.placed) :
      ∃ rows : List p.NodeRow, placed.map (Placed.node p.edges) = rows.map NodeRow.node ∧
        (placed.flatMap (Placed.separated p.headOf)).map (Placed.node p.separateNexts.edges) =
          rows.flatMap NodeRow.nodes := by
    induction placed with
    | nil => exact ⟨[], rfl, rfl⟩
    | cons q rest ih =>
      rw [List.forall_mem_cons] at h
      obtain ⟨r, hnode, hnodes⟩ := exists_nodeRow h.1
      obtain ⟨rows, hmap, hflatMap⟩ := ih h.2
      refine ⟨r :: rows, ?_, ?_⟩
      · rw [List.map_cons, List.map_cons, hnode, hmap]
      · rw [List.flatMap_cons, List.map_append, List.flatMap_cons, hnodes, hflatMap]
  obtain ⟨rows, hmap, hflatMap⟩ := statements p.placed fun _ => id
  refine ⟨p.endRow Graph.entry 0 p.headOf_entry.symm ::
    p.endRow Graph.exit Graph.exitLine p.headOf_exit.symm :: rows, ?_, ?_⟩
  · rw [Graph.nodes_build, hmap]
    rfl
  · rw [Graph.nodes_build, placed_separateNexts, hflatMap]
    rfl

theorem exists_isHeadOf {n : Node} (hn : n ∈ (Graph.build p).nodes) :
    ∃ n' ∈ (Graph.build p.separateNexts).nodes, p.IsHeadOf n' n := by
  obtain ⟨rows, hnodes, hnodes'⟩ := exists_nodeRows p
  rw [← Array.mem_toList_iff, hnodes] at hn
  obtain ⟨r, hr, rfl⟩ := List.mem_map.1 hn
  refine ⟨r.first, ?_, r.isHeadOf⟩
  rw [← Array.mem_toList_iff, hnodes']
  exact List.mem_flatMap.2 ⟨r, hr, List.mem_cons_self⟩

section FlatMap

variable {β : Type} {F F' : Node → List β}

/-- A list over all nodes is the same for both programs if it is so for each node and the first of
those that stand for it, and the others have no part in it. -/
theorem flatMap_nodes_separateNexts
    (hhead : ∀ n ∈ (Graph.build p).nodes, ∀ n', p.IsHeadOf n' n → F' n' = F n)
    (hinner : ∀ id n', p.InnerNode id n'.id → (∃ counters, n'.command? = some (.next counters)) →
      F' n' = []) :
    (Graph.build p.separateNexts).nodes.toList.flatMap F' =
      (Graph.build p).nodes.toList.flatMap F := by
  obtain ⟨rows, hnodes, hnodes'⟩ := exists_nodeRows p
  rw [hnodes', hnodes, List.flatMap_assoc, List.flatMap_map]
  refine List.flatMap_congr fun r hr => ?_
  have hnode : r.node ∈ (Graph.build p).nodes := by
    rw [← Array.mem_toList_iff, hnodes]
    exact List.mem_map_of_mem hr
  have hlater : r.later.flatMap F' = [] :=
    List.flatMap_eq_nil_iff.2 fun n' hn' => hinner _ n' (r.inner n' hn') (r.next n' hn')
  rw [NodeRow.nodes, List.flatMap_cons, hlater, List.append_nil]
  exact hhead _ hnode _ r.isHeadOf

/-- A list over all nodes is a part of the one for the other program if it is so for each node and
the first of those that stand for it. -/
theorem sublist_flatMap_nodes_separateNexts
    (hhead : ∀ n ∈ (Graph.build p).nodes, ∀ n', p.IsHeadOf n' n → (F n).Sublist (F' n')) :
    ((Graph.build p).nodes.toList.flatMap F).Sublist
      ((Graph.build p.separateNexts).nodes.toList.flatMap F') := by
  obtain ⟨rows, hnodes, hnodes'⟩ := exists_nodeRows p
  rw [hnodes', hnodes, List.flatMap_assoc, List.flatMap_map]
  refine List.Sublist.flatMap_right _ fun r hr => ?_
  have hnode : r.node ∈ (Graph.build p).nodes := by
    rw [← Array.mem_toList_iff, hnodes]
    exact List.mem_map_of_mem hr
  exact (hhead _ hnode _ r.isHeadOf).trans (List.sublist_append_left _ _)

/-- A list made of some nodes is the same for both programs if each node and the first of those that
stand for it contribute the same, and a `NEXT` contributes nothing. -/
theorem filterMap_nodes_separateNexts {f f' : Node → Option β}
    (hhead : ∀ n ∈ (Graph.build p).nodes, ∀ n', p.IsHeadOf n' n → f' n' = f n)
    (hnext : ∀ n' counters, n'.command? = some (.next counters) → f' n' = none) :
    (Graph.build p.separateNexts).nodes.toList.filterMap f' =
      (Graph.build p).nodes.toList.filterMap f := by
  rw [List.filterMap_eq_flatMap_toList, List.filterMap_eq_flatMap_toList]
  refine flatMap_nodes_separateNexts (fun n hn n' h => ?_) fun _ n' _ ⟨counters, hc⟩ => ?_
  · rw [hhead n hn n' h]
  · rw [hnext n' counters hc, Option.toList_none]

end FlatMap

end Program
end LineBasic
