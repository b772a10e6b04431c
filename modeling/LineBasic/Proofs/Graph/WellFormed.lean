import LineBasic.Proofs.Graph.Edges

/-!
# Built graphs are well formed

`Graph.WellFormed` says what the analyses rely on: numbers of nodes stay within the graph, nothing
leads back to the entry, a `RETURN` has edges of its own kind only, and it has one to every node
that follows a call. The graph of every program is of this form (`wellFormed_build`).
-/

namespace LineBasic

theorem nodup_eraseDups {α : Type} [BEq α] [LawfulBEq α] :
    ∀ l : List α, l.eraseDups.Nodup
  | [] => List.nodup_nil
  | x :: l => by
    rw [List.eraseDups_cons, List.nodup_cons]
    refine ⟨fun h => ?_, nodup_eraseDups _⟩
    simpa using (List.mem_filter.1 (List.mem_eraseDups.1 h)).2
termination_by l => l.length
decreasing_by exact Nat.lt_succ_of_le (List.length_filter_le ..)

namespace Graph

/-- The node is a `RETURN`. -/
def ReturnAt (g : Graph) (id : NodeId) : Prop :=
  ∃ n, g.node? id = some n ∧ n.command? = some .returnSub

/-- What the flow of facts relies on. -/
structure WellFormed (g : Graph) : Prop where
  id_eq : ∀ {id n}, g.node? id = some n → n.id = id
  entry_lt : entry < g.size
  next_lt : ∀ id, g.next id < g.size
  entry_lt_next : ∀ id, entry < g.next id
  target_lt : ∀ {id t kind}, (t, kind) ∈ g.successors id → t < g.size
  entry_lt_target : ∀ {id t kind}, (t, kind) ∈ g.successors id → entry < t
  kind_of_return : ∀ {id t kind}, g.ReturnAt id → (t, kind) ∈ g.successors id → kind = .back
  back_of_call : ∀ {id site t}, g.ReturnAt id → (t, .call) ∈ g.successors site →
    (g.next site, .back) ∈ g.successors id

variable (p : Program)

theorem size_build : (build p).size = p.nodeCount := by
  rw [Program.nodeCount, ← Program.length_placed, Nat.add_comm]
  simp [build, size, Nat.add_assoc]

theorem entry_lt_size_build : entry < (build p).size := by
  rw [size_build]
  exact Nat.lt_add_right _ Nat.two_pos

/-- The entry, the exit and the nodes of the statements, in this order. -/
theorem nodes_build :
    (Graph.build p).nodes.toList =
      [Node.ofEdges p.edges Graph.entry none 0 0 Graph.exit,
        Node.ofEdges p.edges Graph.exit none Graph.exitLine 0 Graph.exit] ++
      p.placed.map (Placed.node p.edges) := by
  simp [Graph.build]

variable {p} {q : Placed} {id : NodeId} {n : Node}

theorem node?_build_of_mem_placed (hq : q ∈ p.placed) :
    (build p).node? q.id = some (q.node p.edges) := by
  obtain ⟨i, hi, rfl⟩ := List.getElem_of_mem hq
  rw [Program.id_getElem_placed p hi, node?, build]
  simp [hi]

/-- A node is the entry or the exit, or it stands for a statement. -/
theorem eq_of_node?_build (h : (build p).node? id = some n) :
    (n.statement = none ∧ ∃ line, n = .ofEdges p.edges id none line 0 exit) ∨
      ∃ q ∈ p.placed, q.id = id ∧ n = q.node p.edges := by
  match id, h with
  | 0, h | 1, h =>
    simp only [node?, build] at h
    simp at h
    exact .inl (h ▸ ⟨rfl, _, rfl⟩)
  | i + 2, h =>
    simp only [node?, build] at h
    simp at h
    obtain ⟨q, hq, rfl⟩ := h
    obtain ⟨hi, rfl⟩ := List.getElem?_eq_some_iff.1 hq
    exact .inr ⟨_, List.getElem_mem hi, Program.id_getElem_placed p hi, rfl⟩

theorem successors_of_node?_build (h : (build p).node? id = some n) :
    n.id = id ∧ ∀ t kind, (t, kind) ∈ n.successors ↔ ⟨id, t, kind⟩ ∈ p.edges := by
  have ofEdges (statement : Option Statement) (line depth : Nat) (next : NodeId) (t : NodeId)
      (kind : EdgeKind) :
      (t, kind) ∈ (Node.ofEdges p.edges id statement line depth next).successors ↔
        ⟨id, t, kind⟩ ∈ p.edges := by
    rw [Node.ofEdges, List.mem_eraseDups, List.mem_map]
    constructor
    · rintro ⟨⟨source, target, kind⟩, he, ht⟩
      obtain ⟨hmem, hs⟩ := List.mem_filter.1 he
      obtain ⟨rfl, rfl⟩ := Prod.mk.inj ht
      obtain rfl : source = id := eq_of_beq hs
      exact hmem
    · intro he
      exact ⟨_, List.mem_filter.2 ⟨he, beq_self_eq_true id⟩, rfl⟩
  rcases eq_of_node?_build h with ⟨-, line, rfl⟩ | ⟨q, hq, rfl, rfl⟩
  · exact ⟨rfl, ofEdges _ _ _ _⟩
  · exact ⟨rfl, ofEdges _ _ _ _⟩

/-- The successors of a node are where its edges lead. -/
theorem mem_successors_build_iff {t : NodeId} {kind : EdgeKind} :
    (t, kind) ∈ (build p).successors id ↔ ⟨id, t, kind⟩ ∈ p.edges := by
  rw [successors]
  rcases hn : (build p).node? id with _ | n
  · refine iff_of_false List.not_mem_nil fun he => ?_
    rcases (Program.soundEdge_of_mem_edges he).source with rfl | ⟨q, hq, rfl⟩
    · exact Nat.not_le.2 (entry_lt_size_build p) (Array.getElem?_eq_none_iff.1 hn)
    · rw [node?_build_of_mem_placed hq] at hn
      cases hn
  · exact (successors_of_node?_build hn).2 t kind

theorem returnAt_build_iff : (build p).ReturnAt id ↔ ∃ q ∈ p.placed, q.id = id ∧ q.Returns := by
  constructor
  · rintro ⟨n, hn, hc⟩
    rcases eq_of_node?_build hn with ⟨hs, -⟩ | ⟨q, hq, rfl, rfl⟩
    · simp [Node.command?, hs] at hc
    · exact ⟨q, hq, rfl, hc⟩
  · rintro ⟨q, hq, rfl, hc⟩
    exact ⟨_, node?_build_of_mem_placed hq, hc⟩

theorem next_build_of_mem_placed (hq : q ∈ p.placed) : (build p).next q.id = q.next := by
  rw [next, node?_build_of_mem_placed hq]
  rfl

theorem isTarget_next_build (p : Program) (id : NodeId) : p.IsTarget ((build p).next id) := by
  rw [next]
  rcases hn : (build p).node? id with _ | n
  · exact Program.isTarget_exit
  · rcases eq_of_node?_build hn with ⟨-, line, rfl⟩ | ⟨q, hq, rfl, rfl⟩
    · exact Program.isTarget_exit
    · exact Program.isTarget_next hq

theorem isTarget_of_mem_successors {t : NodeId} {kind : EdgeKind}
    (h : (t, kind) ∈ (build p).successors id) : p.IsTarget t :=
  (Program.soundEdge_of_mem_edges (mem_successors_build_iff.1 h)).target

theorem wellFormed_build (p : Program) : (build p).WellFormed where
  id_eq h := (successors_of_node?_build h).1
  entry_lt := entry_lt_size_build p
  next_lt id := by
    rw [size_build]
    exact (isTarget_next_build p id).2
  entry_lt_next id := (isTarget_next_build p id).1
  target_lt h := by
    rw [size_build]
    exact (isTarget_of_mem_successors h).2
  entry_lt_target h := (isTarget_of_mem_successors h).1
  kind_of_return hr h := by
    obtain ⟨q, hq, rfl, hq'⟩ := returnAt_build_iff.1 hr
    exact (Program.soundEdge_of_mem_edges (mem_successors_build_iff.1 h)).back q hq rfl hq'
  back_of_call hr h := by
    obtain ⟨q, hq, rfl, hq'⟩ := returnAt_build_iff.1 hr
    obtain ⟨caller, hcaller, rfl, hc⟩ :=
      (Program.soundEdge_of_mem_edges (mem_successors_build_iff.1 h)).call rfl
    rw [next_build_of_mem_placed hcaller]
    exact mem_successors_build_iff.2 (Program.back_mem_edges hq hq' hcaller hc)

end Graph
end LineBasic
