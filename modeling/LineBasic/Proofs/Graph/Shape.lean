import LineBasic.Proofs.Graph.LineEntries

/-!
# The shape of control-flow graphs

The nodes of a graph are the entry, the exit and the statements in the order of the text
(`Graph.map_statement_nodes`). Successors and predecessors mirror each other
(`Graph.mem_predecessors_iff`), nothing leads to the entry or out of the exit, and every other node
leads somewhere (`Graph.successors_ne_nil`), though what a `WEND`, a `RETURN` or a `RESUME` leads to
is only known from the rest of the program. A line is entered at the first statement that stands on
it or on a later line (`Program.exists_lineEntry?`).
-/

namespace LineBasic

namespace Program

variable {p : Program} {q : Placed}

/-! ## Ways out -/

/-- A statement has edges of itself, unless they belong to a loop or lead back. -/
theorem exists_mem_ownEdges (ctx : EdgeContext) (q : Placed)
    (hwend : q.statement.command? = some .wend → ∀ l ∈ ctx.whileLoops, l.wendNode ≠ q.id)
    (hreturn : ¬ q.Returns)
    (hresume : ∀ point, q.statement.command? = some (.resume point) → ∃ line, point = .line line) :
    ∃ e ∈ q.ownEdges ctx, e.source = q.id := by
  rcases q with ⟨⟨place, body⟩ | ⟨place, condition, onTrue, onFalse⟩, id, depth, next⟩
  · have normal : ∃ e ∈ [(⟨id, next, .normal⟩ : Edge)], e.source = id :=
      ⟨_, List.mem_singleton_self _, rfl⟩
    change ∃ e ∈ ctx.commandEdges id next body, e.source = id
    unfold EdgeContext.commandEdges
    split
    · exact ⟨_, List.mem_singleton_self _, rfl⟩
    · exact ⟨_, List.mem_singleton_self _, rfl⟩
    · exact ⟨_, List.mem_append_right _ (List.mem_singleton_self _), rfl⟩
    · exact ⟨_, List.mem_append_right _ (List.mem_singleton_self _), rfl⟩
    · exact ⟨_, List.mem_singleton_self _, rfl⟩
    · exact ⟨_, List.mem_singleton_self _, rfl⟩
    · exact ⟨_, List.mem_cons_self, rfl⟩
    · exact ⟨_, List.mem_singleton_self _, rfl⟩
    · split <;> exact ⟨_, List.mem_singleton_self _, rfl⟩
    · rw [if_neg]
      · exact normal
      · simpa using hwend rfl
    · exact absurd rfl hreturn
    next point hline =>
      obtain ⟨line, rfl⟩ := hresume _ rfl
      exact absurd rfl (hline line)
    · exact normal
  · have arm (first : Nat) (kind : EdgeKind) (a : Arm) :
        (ctx.armEdge id first next kind a).source = id := by
      rcases a with _ | _ | _ <;> rfl
    rcases onFalse with _ | onFalse <;> exact ⟨_, List.mem_cons_self, arm _ _ _⟩

/-- Edges that lead on from a node lead somewhere. -/
theorem exists_mem_leadingEdges (id : NodeId) (kind : EdgeKind) (targets : List NodeId) :
    ∃ e ∈ leadingEdges id kind targets, e.source = id := by
  cases targets with
  | nil => exact ⟨_, List.mem_cons_self, rfl⟩
  | cons => exact ⟨_, List.mem_cons_self, rfl⟩

/-- Every statement has an edge from its node. -/
theorem exists_edge_from (hq : q ∈ p.placed) : ∃ e ∈ p.edges, e.source = q.id := by
  by_cases hreturn : q.Returns
  · obtain ⟨e, he, hs⟩ := exists_mem_leadingEdges q.id .back (returnPoints p.placed)
    exact ⟨e, mem_edges_of_mem_backEdges (mem_backEdges_iff.2 ⟨q, hq, .inl ⟨hreturn, he⟩⟩), hs⟩
  by_cases hresume : ∃ point, q.statement.command? = some (.resume point) ∧
      ∀ line, point ≠ .line line
  · obtain ⟨e, he, hs⟩ := exists_mem_leadingEdges q.id .resume (resumePoints p.placed)
    exact ⟨e, mem_edges_of_mem_backEdges (mem_backEdges_iff.2 ⟨q, hq, .inr ⟨hresume, he⟩⟩), hs⟩
  by_cases hwend : ∃ l ∈ p.matchedLoops.whileLoops, l.wendNode = q.id
  · -- a matched `WEND` goes back to its `WHILE`
    obtain ⟨l, hl, hid⟩ := hwend
    refine ⟨⟨l.wendNode, l.whileNode, .loopBack⟩, mem_edges_of_mem_loopEdges ?_, hid⟩
    refine List.mem_append_right _ (List.mem_flatMap.2 ⟨l, hl, ?_⟩)
    exact List.mem_cons_of_mem _ (List.mem_singleton_self _)
  obtain ⟨e, he, hs⟩ := exists_mem_ownEdges p.edgeContext q
    (fun _ l hl hid => hwend ⟨l, hl, hid⟩) hreturn fun point hpoint => by
      by_contra hline
      exact hresume ⟨point, hpoint, fun line heq => hline ⟨line, heq⟩⟩
  exact ⟨e, mem_edges_of_mem_ownEdges hq he, hs⟩

end Program

namespace Graph

variable (p : Program) {n m : Node} {i j : NodeId}

/-! ## Nodes -/

theorem map_id_nodes : (build p).nodes.toList.map Node.id = List.range (build p).size := by
  rw [nodes_build, List.map_append, List.map_map, size_build, List.range_eq_range',
    Program.nodeCount]
  have hplaced : p.placed.map (Node.id ∘ Placed.node p.edges) = p.placed.map Placed.id := rfl
  rw [hplaced, Program.map_id_placed, ← List.range'_append_1]
  rfl

/-- The entry, the exit, and one node for every statement, in the order of the text. -/
theorem map_statement_nodes :
    (build p).nodes.toList.map (fun n => (n.statement, n.depth)) =
      (none, 0) :: (none, 0) :: p.occurrences.map fun o => (some o.1, o.2) := by
  rw [nodes_build, List.map_append, List.map_map, Program.occurrences,
    occurrencesOfList_eq 2 exit, List.map_map]
  rfl

variable {p}

/-- The nodes before a node are those with an edge to it. -/
theorem predecessors_of_node?_build (h : (build p).node? j = some n) :
    i ∈ n.predecessors ↔ ∃ kind, ⟨i, j, kind⟩ ∈ p.edges := by
  have ofEdges (statement : Option Statement) (line depth : Nat) (next : NodeId) :
      i ∈ (Node.ofEdges p.edges j statement line depth next).predecessors ↔
        ∃ kind, ⟨i, j, kind⟩ ∈ p.edges := by
    rw [Node.ofEdges, List.mem_eraseDups, List.mem_map]
    constructor
    · rintro ⟨⟨source, target, kind⟩, he, rfl⟩
      obtain ⟨hmem, ht⟩ := List.mem_filter.1 he
      obtain rfl : target = j := eq_of_beq ht
      exact ⟨kind, hmem⟩
    · rintro ⟨kind, he⟩
      exact ⟨_, List.mem_filter.2 ⟨he, beq_self_eq_true j⟩, rfl⟩
  rcases eq_of_node?_build h with ⟨-, line, rfl⟩ | ⟨q, hq, rfl, rfl⟩
  · exact ofEdges _ _ _ _
  · exact ofEdges _ _ _ _

/-- Successors and predecessors mirror each other. -/
theorem mem_predecessors_iff (hn : (build p).node? i = some n) (hm : (build p).node? j = some m) :
    i ∈ m.predecessors ↔ ∃ kind, (j, kind) ∈ n.successors := by
  rw [predecessors_of_node?_build hm]
  exact exists_congr fun kind => ((successors_of_node?_build hn).2 j kind).symm

theorem nodup_successors (h : (build p).node? i = some n) : n.successors.Nodup := by
  rcases eq_of_node?_build h with ⟨-, line, rfl⟩ | ⟨q, hq, rfl, rfl⟩ <;> exact nodup_eraseDups _

theorem nodup_predecessors (h : (build p).node? i = some n) : n.predecessors.Nodup := by
  rcases eq_of_node?_build h with ⟨-, line, rfl⟩ | ⟨q, hq, rfl, rfl⟩ <;> exact nodup_eraseDups _

theorem predecessors_entry (h : (build p).node? entry = some n) : n.predecessors = [] := by
  refine List.eq_nil_iff_forall_not_mem.2 fun i hi => ?_
  obtain ⟨kind, he⟩ := (predecessors_of_node?_build h).1 hi
  exact Nat.lt_irrefl _ (Program.soundEdge_of_mem_edges he).target.1

theorem successors_exit (h : (build p).node? exit = some n) : n.successors = [] := by
  refine List.eq_nil_iff_forall_not_mem.2 fun (t, kind) ht => ?_
  have he := ((successors_of_node?_build h).2 t kind).1 ht
  rcases (Program.soundEdge_of_mem_edges he).source with hs | ⟨q, hq, hs⟩
  · cases hs
  · have hid : q.id = exit := hs
    exact absurd (hid ▸ Program.two_le_id hq) (by decide)

/-- Every node but the exit leads somewhere. -/
theorem successors_ne_nil (h : (build p).node? i = some n) (hne : i ≠ exit) :
    n.successors ≠ [] := by
  have leads : ∃ e ∈ p.edges, e.source = i := by
    rcases Nat.lt_or_ge i 2 with hlt | hle
    · have hi : i = entry := by
        unfold entry exit NodeId at *
        omega
      exact ⟨_, List.mem_cons_self, hi.symm⟩
    · have hlt : i < p.nodeCount := by
        rw [← size_build]
        exact (Array.getElem?_eq_some_iff.1 h).1
      obtain ⟨q, hq, rfl⟩ := p.exists_mem_placed hle hlt
      exact Program.exists_edge_from hq
  obtain ⟨⟨source, t, kind⟩, he, rfl⟩ := leads
  exact List.ne_nil_of_mem (((successors_of_node?_build h).2 t kind).2 he)

end Graph

/-! ## Entries of lines -/

/-- The node of the first statement on a line with this number or a later one; the exit if there is
none. -/
def FirstFrom (lines : List ProgramLine) (first number : Nat) (node : NodeId) : Prop :=
  (∃ l, BeginsAt lines first l node ∧ number ≤ l.number ∧
    ∀ l' ∈ lines, number ≤ l'.number → l'.statements ≠ [] → l.number ≤ l'.number) ∨
  node = Graph.exit ∧ ∀ l ∈ lines, number ≤ l.number → l.statements = []

section Entries

variable {lines rest : List ProgramLine} {l : ProgramLine} {first number number' : Nat}
  {node : NodeId}

/-- A line before, which has no statement or a smaller number, makes no difference. -/
theorem FirstFrom.cons (h : FirstFrom rest (first + nodeCountOfList l.statements) number node)
    (hl : l.statements = [] ∨ l.number < number) : FirstFrom (l :: rest) first number node := by
  have skipped : number ≤ l.number → l.statements = [] := fun hle => by
    rcases hl with hl | hl
    · exact hl
    · omega
  rcases h with ⟨l', hbegins, hle, hfirst⟩ | ⟨rfl, hnone⟩
  · refine .inl ⟨l', hbegins.of_rest, hle, List.forall_mem_cons.2 ⟨fun hle' hne => ?_, hfirst⟩⟩
    exact absurd (skipped hle') hne
  · exact .inr ⟨rfl, List.forall_mem_cons.2 ⟨skipped, hnone⟩⟩

/-- The first entry of ascending lines. -/
theorem firstFrom_head (first : Nat) (h : lines.Pairwise fun a b => a.number < b.number)
    (hnumber : ∀ l ∈ lines, number ≤ l.number) :
    FirstFrom lines first number
      (((lineEntries first lines).head?.map Prod.snd).getD Graph.exit) := by
  induction lines generalizing first with
  | nil => exact .inr ⟨rfl, List.forall_mem_nil _⟩
  | cons l rest ih =>
    obtain ⟨hl, hrest⟩ := List.pairwise_cons.1 h
    rw [List.forall_mem_cons] at hnumber
    rw [lineEntries, List.head?_cons, Option.map_some, Option.getD_some]
    split
    next hempty => exact (ih _ hrest hnumber.2).cons (.inl (List.isEmpty_iff.1 hempty))
    next hne =>
      refine .inl ⟨l, ⟨[], rest, rfl, mt List.isEmpty_iff.2 hne, rfl⟩, hnumber.1, ?_⟩
      exact List.forall_mem_cons.2 ⟨fun _ _ => Nat.le_refl _, fun l' hl' _ _ =>
        Nat.le_of_lt (hl l' hl')⟩

/-- Each of several ascending lines is entered at the first statement from there on. -/
theorem exists_entry_firstFrom (first : Nat) (h : lines.Pairwise fun a b => a.number < b.number)
    (hl : l ∈ lines) :
    ∃ node, (lineEntries first lines).find? (·.1 == l.number) = some (l.number, node) ∧
      FirstFrom lines first l.number node := by
  induction lines generalizing first with
  | nil => cases hl
  | cons l' rest ih =>
    obtain ⟨hlater, hrest⟩ := List.pairwise_cons.1 h
    rcases List.mem_cons.1 hl with rfl | hmem
    · refine ⟨_, by rw [lineEntries, List.find?_cons_of_pos (by simp)], ?_⟩
      have hhead := firstFrom_head first h
        (List.forall_mem_cons.2 ⟨Nat.le_refl _, fun b hb => Nat.le_of_lt (hlater b hb)⟩)
      rwa [lineEntries, List.head?_cons] at hhead
    · have hlt := hlater l hmem
      obtain ⟨node, hfind, hfirst⟩ := ih (first + nodeCountOfList l'.statements) hrest hmem
      refine ⟨node, ?_, hfirst.cons (.inr hlt)⟩
      rw [lineEntries, List.find?_cons_of_neg (by simpa using Nat.ne_of_lt hlt), hfind]

end Entries

theorem Program.exists_lineEntry? {p : Program}
    (h : p.lines.Pairwise fun a b => a.number < b.number) {l : ProgramLine} (hl : l ∈ p.lines) :
    ∃ node, Graph.lineEntry? (Graph.build p) l.number = some node ∧
      FirstFrom p.lines 2 l.number node := by
  obtain ⟨node, hfind, hfirst⟩ := exists_entry_firstFrom 2 h hl
  refine ⟨node, ?_, hfirst⟩
  unfold Graph.lineEntry?
  exact congrArg (Option.map Prod.snd) hfind

end LineBasic
