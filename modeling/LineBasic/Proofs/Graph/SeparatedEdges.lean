import LineBasic.Proofs.Graph.SeparatedLoops
import LineBasic.Proofs.Graph.WellFormed

/-!
# Edges between separate `NEXT` statements

Edges of the graph of a program are drawn between the statements that stand for its statements. One
that leaves a `NEXT` for several counters leaves some statement of the row that stands for it, and
the statements of a row follow each other.
-/

namespace LineBasic

/-- An edge from each of the statements that stand for the source to the next one, and from the last
one to the target. -/
def Edge.drawn (head : NodeId → NodeId) (e : Edge) : List Edge :=
  (List.range' (head e.source) (head (e.source + 1) - head e.source)).map fun n =>
    ⟨n, if n + 1 = head (e.source + 1) then head e.target else n + 1, e.kind⟩

section Edges

variable {head : NodeId → NodeId} {ctx ctx' : EdgeContext}

theorem Edge.mem_drawn_iff {e e' : Edge} :
    e' ∈ e.drawn head ↔ head e.source ≤ e'.source ∧ e'.source < head (e.source + 1) ∧
      e'.target = (if e'.source + 1 = head (e.source + 1) then head e.target else e'.source + 1) ∧
      e'.kind = e.kind := by
  obtain ⟨source, target, kind⟩ := e'
  simp only [drawn, List.mem_map, List.mem_range'_1, Edge.mk.injEq]
  constructor
  · rintro ⟨n, ⟨hle, hlt⟩, rfl, rfl, rfl⟩
    exact ⟨hle, by unfold NodeId at *; omega, rfl, rfl⟩
  · rintro ⟨hle, hlt, rfl, rfl⟩
    exact ⟨source, ⟨hle, by unfold NodeId at *; omega⟩, rfl, rfl, rfl⟩

theorem Edge.drawn_of_succ {e : Edge} (h : head (e.source + 1) = head e.source + 1) :
    e.drawn head = [e.renumbered head] := by
  simp [drawn, renumbered, h]

/-! ## Edges that a statement has of itself -/

/-- What the edges of a statement and of those standing for it depend on is the same. -/
structure Placed.Alike (head : NodeId → NodeId) (ctx ctx' : EdgeContext) (q : Placed) : Prop where
  room : q.HasRoom head
  wend : (ctx'.whileLoops.any fun l => l.wendNode == head q.id) =
    ctx.whileLoops.any fun l => l.wendNode == q.id
  next {counters : List Name} : q.statement.command? = some (.next counters) →
    ∀ i < q.statement.separated.length,
      (ctx'.forLoops.any fun l => l.nextNode == head q.id + i) =
        ctx.forLoops.any fun l => l.nextNode == q.id

section Alike

variable (halike : EdgeContext.Alike head ctx ctx')
include halike

theorem EdgeContext.Alike.armEdge {id first next : NodeId} {kind : EdgeKind} (arm : Arm) :
    ctx'.armEdge (head id) (head first) (head next) kind arm.separated =
      (ctx.armEdge id first next kind arm).renumbered head := by
  rcases arm with line | _ | ⟨s, rest⟩
  · simp [Arm.separated, EdgeContext.armEdge, Edge.renumbered, halike.entryOf]
  · rfl
  · have hne : (separatedList (s :: rest)).isEmpty = false := isEmpty_separatedList (s :: rest)
    rw [Arm.separated]
    cases hs : separatedList (s :: rest) with
    | nil => rw [hs] at hne; cases hne
    | cons => rfl

omit halike in
theorem flatMap_drawn {id : NodeId} {edges : List Edge} (hsource : ∀ e ∈ edges, e.source = id)
    (hsucc : head (id + 1) = head id + 1) :
    edges.flatMap (Edge.drawn head) = edges.map (Edge.renumbered head) := by
  rw [List.map_eq_flatMap]
  refine List.flatMap_congr fun e he => ?_
  exact Edge.drawn_of_succ (hsource e he ▸ hsucc)

omit halike in
theorem edgesOfList_append (ctx : EdgeContext) (id next : NodeId) (before after : List Statement) :
    edgesOfList ctx id next (before ++ after) =
      edgesOfList ctx id (if after.isEmpty then next else id + nodeCountOfList before) before ++
        edgesOfList ctx (id + nodeCountOfList before) next after := by
  induction before generalizing id with
  | nil => simp [edgesOfList, nodeCountOfList]
  | cons s rest ih =>
    rw [List.cons_append, edgesOfList, edgesOfList, ih, nodeCountOfList, ← Nat.add_assoc,
      List.append_assoc]
    congr 2
    cases rest <;> simp [nodeCountOfList]

omit halike in
/-- The edges of `NEXT` statements in a row, all of which close a loop or none. -/
theorem edgesOfList_row {place : Place} {id next : NodeId} {names : List Name} {closes : Bool}
    (h : ∀ i < names.length, (ctx'.forLoops.any fun l => l.nextNode == id + i) = closes) :
    edgesOfList ctx' id next ((names.map fun c => .next [c]).map (.command place)) =
      (List.range' id names.length).map fun n =>
        ⟨n, if n + 1 = id + names.length then next else n + 1,
          if closes then .loopExit else .normal⟩ := by
  induction names generalizing id with
  | nil => rfl
  | cons c rest ih =>
    have hrest : ∀ i < rest.length,
        (ctx'.forLoops.any fun l => l.nextNode == id + 1 + i) = closes :=
      fun i hi => by
        rw [Nat.add_assoc, Nat.add_comm 1]
        exact h (i + 1) (Nat.succ_lt_succ hi)
    have hfirst : (ctx'.forLoops.any fun l => l.nextNode == id) = closes :=
      h 0 (Nat.succ_pos _)
    have hlast : (((rest.map fun c => Command.next [c]).map (Statement.command place)).isEmpty =
        true) ↔ id + 1 = id + (rest.length + 1) := by
      cases rest <;> simp
    rw [List.map_cons, List.map_cons, edgesOfList, Statement.nodeCount, ih hrest, List.length_cons,
      List.range'_succ, List.map_cons, Statement.edges, EdgeContext.commandEdges, hfirst]
    simp only [hlast, Nat.add_assoc, Nat.add_comm 1]
    cases closes <;> rfl

/-- A condition stays one statement, and so does the edge into an arm. -/
theorem EdgeContext.Alike.drawn_armEdge {id first next : NodeId} {kind : EdgeKind} {arm : Arm}
    (hsucc : head (id + 1) = head id + 1) :
    (ctx.armEdge id first next kind arm).drawn head =
      [ctx'.armEdge (head id) (head first) (head next) kind arm.separated] := by
  have hsource : (ctx.armEdge id first next kind arm).source = id := by
    rcases arm with _ | _ | _ <;> rfl
  rw [Edge.drawn_of_succ (hsource.symm ▸ hsucc), halike.armEdge]

theorem EdgeContext.Alike.edgesOfList_command {place : Place} {body : Command}
    {id depth next : NodeId}
    (hq : Placed.Alike head ctx ctx' ⟨.command place body, id, depth, next⟩) :
    edgesOfList ctx' (head id) (head next) (Statement.command place body).separated =
      (ctx.commandEdges id next body).flatMap (Edge.drawn head) := by
  have hroom : head (id + 1) = head id + body.separated.length := by
    have h := hq.room
    rwa [Placed.HasRoom, Statement.separated, List.length_map] at h
  by_cases hone : body.separated = [body]
  · rw [hone] at hroom
    have hedges : ctx'.commandEdges (head id) (head next) body =
        (ctx.commandEdges id next body).map (Edge.renumbered head) :=
      halike.commandEdges
        (fun ⟨counters, hc⟩ => hq.next (congrArg some hc) 0 (Statement.length_separated_pos _))
        hq.wend
    rw [flatMap_drawn (fun e he => (ctx.ofCommand_of_mem _ _ _ e he).source_eq) hroom, ← hedges,
      Statement.separated, hone]
    exact List.append_nil _
  · obtain ⟨names, hne, rfl⟩ : ∃ names, names ≠ [] ∧ body = .next names := by
      unfold Command.separated at hone
      split at hone
      · exact ⟨_, List.cons_ne_nil _ _, rfl⟩
      · exact absurd rfl hone
    rw [Command.separated_next hne, List.length_map] at hroom
    have hcloses := hq.next rfl
    rw [Statement.separated, Command.separated_next hne, List.length_map,
      List.length_map] at hcloses
    rw [Statement.separated, Command.separated_next hne, edgesOfList_row hcloses,
      EdgeContext.commandEdges]
    split <;> simp [Edge.drawn, *]

end Alike

mutual

theorem Statement.edgesOfList_separated (halike : EdgeContext.Alike head ctx ctx')
    (id next depth : Nat) :
    ∀ s : Statement, (∀ q ∈ s.placed id next depth, q.Alike head ctx ctx') →
      edgesOfList ctx' (head id) (head next) s.separated =
        (s.edges ctx id next).flatMap (Edge.drawn head)
  | .command place body => by
    intro h
    rw [Statement.placed, List.forall_mem_singleton] at h
    exact halike.edgesOfList_command h
  | .conditional place condition onTrue none => by
    intro h
    rw [Statement.placed, List.forall_mem_cons] at h
    have hfirst : head (id + 1) = head id + 1 := h.1.room
    have hinside := onTrue.edges_separated halike (id + 1) next (depth + 1) h.2
    rw [Statement.edges, List.flatMap_append, List.flatMap_cons, List.flatMap_singleton, ← hinside,
      halike.drawn_armEdge hfirst, Edge.drawn_of_succ hfirst, hfirst]
    simp [Statement.separated, edgesOfList, Statement.edges, Edge.renumbered]
  | .conditional place condition onTrue (some onFalse) => by
    intro h
    rw [Statement.placed, List.forall_mem_cons, List.forall_mem_append] at h
    have hfirst : head (id + 1) = head id + 1 := h.1.room
    have hsecond : head (id + 1 + onTrue.nodeCount) = head id + 1 + onTrue.separated.nodeCount := by
      rw [onTrue.head_add_nodeCount (id + 1) _ _ fun q hq => (h.2.1 q hq).room, hfirst]
    have hinside := onTrue.edges_separated halike (id + 1) next (depth + 1) h.2.1
    have hother := onFalse.edges_separated halike (id + 1 + onTrue.nodeCount) next (depth + 1) h.2.2
    rw [Statement.edges, List.flatMap_append, List.flatMap_cons, List.flatMap_cons, ← hinside,
      ← hother, halike.drawn_armEdge hfirst, halike.drawn_armEdge hfirst, hfirst, hsecond]
    simp [Statement.separated, edgesOfList, Statement.edges]

theorem Arm.edges_separated (halike : EdgeContext.Alike head ctx ctx') (id next depth : Nat) :
    ∀ a : Arm, (∀ q ∈ a.placed id next depth, q.Alike head ctx ctx') →
      a.separated.edges ctx' (head id) (head next) =
        (a.edges ctx id next).flatMap (Edge.drawn head)
  | .line _ => fun _ => rfl
  | .block statements => by
    rw [Arm.placed, Arm.separated, Arm.edges, Arm.edges]
    exact edgesOfList_separatedList halike id next depth statements

theorem edgesOfList_separatedList (halike : EdgeContext.Alike head ctx ctx') (id next depth : Nat) :
    ∀ statements : List Statement,
      (∀ q ∈ placedList id next depth statements, q.Alike head ctx ctx') →
      edgesOfList ctx' (head id) (head next) (separatedList statements) =
        (edgesOfList ctx id next statements).flatMap (Edge.drawn head)
  | [] => fun _ => rfl
  | s :: rest => by
    intro h
    rw [placedList, List.forall_mem_append] at h
    have hs : head (id + s.nodeCount) = head id + nodeCountOfList s.separated :=
      s.head_add_nodeCount _ _ _ fun q hq => (h.1 q hq).room
    rw [separatedList, edgesOfList_append, isEmpty_separatedList, ← hs,
      edgesOfList_separatedList halike _ next depth rest h.2, edgesOfList, List.flatMap_append,
      ← s.edgesOfList_separated halike _ _ depth h.1, apply_ite head]

end

end Edges
/-! ## Edges of loops -/

theorem Placed.Calls.ne_next {q : Placed} (h : q.Calls) (counters : List Name) :
    q.statement.command? ≠ some (.next counters) := by
  obtain ⟨c, hc, hcall⟩ := h
  rw [hc]
  rintro ⟨⟩
  rcases hcall with ⟨_, hcall⟩ | ⟨_, _, hcall⟩ <;> cases hcall

theorem Placed.Returns.ne_next {q : Placed} (h : q.Returns) (counters : List Name) :
    q.statement.command? ≠ some (.next counters) := by
  rw [h]
  nofun

namespace Graph

/-- Of the loops that a `NEXT` closes, all but the outermost run their bodies whenever they are
entered. -/
def InnerLoopsIterate (g : Graph) : Prop :=
  ∀ l ∈ g.forLoops, ∀ inner ∈ (g.loopsClosedBy l.nextNode).dropLast, g.alwaysIterates inner = true

instance (g : Graph) : Decidable g.InnerLoopsIterate :=
  inferInstanceAs (Decidable (∀ l ∈ g.forLoops, ∀ inner ∈ (g.loopsClosedBy l.nextNode).dropLast,
    g.alwaysIterates inner = true))

end Graph

namespace Program

variable {p : Program} {q : Placed} {e : Edge}

/-- A node other than a `NEXT` keeps its command and where control goes from it. -/
theorem next_headOf (hq : q ∈ p.placed)
    (hne : ∀ counters, q.statement.command? ≠ some (.next counters)) :
    (Graph.build p.separateNexts).next (p.headOf q.id) = p.headOf ((Graph.build p).next q.id) ∧
      ((Graph.build p.separateNexts).node? (p.headOf q.id)).bind Node.command? =
        ((Graph.build p).node? q.id).bind Node.command? := by
  obtain ⟨q', hq', h⟩ := exists_standsAlone hq hne
  rw [← h.id_eq, Graph.next_build_of_mem_placed hq', Graph.next_build_of_mem_placed hq,
    Graph.node?_build_of_mem_placed hq', Graph.node?_build_of_mem_placed hq]
  exact ⟨h.next_eq, h.command⟩

theorem next_headOf_add (hq : q ∈ p.placed) {i : Nat} (hi : i < q.statement.separated.length) :
    (Graph.build p.separateNexts).next (p.headOf q.id + i) =
      if i + 1 = q.statement.separated.length then p.headOf ((Graph.build p).next q.id)
      else p.headOf q.id + i + 1 := by
  let q' : Placed := ⟨q.statement.separated[i], p.headOf q.id + i, q.depth,
    if i + 1 = q.statement.separated.length then p.headOf q.next else p.headOf q.id + i + 1⟩
  have hq' : q' ∈ p.separateNexts.placed :=
    (mem_placed_separateNexts_iff p).2 ⟨q, hq, i, List.getElem?_eq_getElem hi, rfl, rfl, rfl⟩
  rw [Graph.next_build_of_mem_placed hq]
  exact Graph.next_build_of_mem_placed hq'

section Loops

variable {l : ForLoop}

/-- The loop has a `FOR` and is closed by a `NEXT`, which closes it as one of its loops. -/
theorem exists_of_mem_forLoops (hl : l ∈ (Graph.build p).forLoops) :
    (∃ f ∈ p.placed, f.id = l.forNode ∧ ∀ counters, f.statement.command? ≠ some (.next counters)) ∧
      ∃ q ∈ p.placed, q.id = l.nextNode ∧
        ∃ counters, q.statement.command? = some (.next counters) := by
  have joins := LoopMatching.joins_ofStatements (p.placed.map fun q => (q.id, q.statement))
  obtain ⟨hfor, hnext⟩ := joins.forLoops l hl
  obtain ⟨f, hf, hid, _, hc, _, _, _, _, rfl, -⟩ := commandAt_placed_iff.1 hfor
  obtain ⟨q, hq, hqid, _, hqc, counters, rfl, -⟩ := commandAt_placed_iff.1 hnext
  refine ⟨⟨f, hf, hid, fun counters h => ?_⟩, q, hq, hqid, counters, hqc⟩
  rw [hc] at h
  cases h

theorem next_forNode (hl : l ∈ (Graph.build p).forLoops) :
    (Graph.build p.separateNexts).next (p.headOf l.forNode) =
      p.headOf ((Graph.build p).next l.forNode) := by
  obtain ⟨⟨f, hf, hid, hne⟩, -⟩ := exists_of_mem_forLoops hl
  exact hid ▸ (next_headOf hf hne).1

theorem alwaysIterates_headOf (hl : l ∈ (Graph.build p).forLoops) (nextNode : NodeId)
    (counter : String) :
    (Graph.build p.separateNexts).alwaysIterates ⟨p.headOf l.forNode, nextNode, counter⟩ =
      (Graph.build p).alwaysIterates l := by
  obtain ⟨⟨f, hf, hid, hne⟩, -⟩ := exists_of_mem_forLoops hl
  rw [Graph.alwaysIterates, Graph.alwaysIterates, ← hid, (next_headOf hf hne).2]

section Index

variable {id : NodeId} {i : Nat} (hi : ((Graph.build p).loopsClosedBy id)[i]? = some l)
include hi

theorem mem_forLoops_of_index : l ∈ (Graph.build p).forLoops ∧ l.nextNode = id := by
  obtain ⟨hl, hid⟩ := List.mem_filter.1 (List.mem_of_getElem? hi)
  exact ⟨hl, beq_iff_eq.1 hid⟩

variable (h : (Graph.build p).issues = [])
include h

theorem exists_next_of_index : ∃ q ∈ p.placed, q.id = id ∧ i < q.statement.separated.length ∧
    ((Graph.build p).loopsClosedBy id).length = q.statement.separated.length := by
  obtain ⟨hl, rfl⟩ := mem_forLoops_of_index hi
  obtain ⟨-, q, hq, hid, counters, hc⟩ := exists_of_mem_forLoops hl
  have hlength := length_loopsClosedBy h hq hc
  rw [hid] at hlength
  exact ⟨q, hq, hid, hlength ▸ (List.getElem?_eq_some_iff.1 hi).1, hlength⟩

theorem standsFor_of_index : p.StandsFor (p.headOf id + i) id := by
  obtain ⟨q, hq, rfl, hlt, -⟩ := exists_next_of_index hi h
  exact (standsFor_add_iff hq).2 hlt

/-- Only the outermost loop may be passed by, and it is left by the last statement of the row. -/
theorem next_of_passed_by (hloops : (Graph.build p).InnerLoopsIterate)
    (hiterates : (Graph.build p).alwaysIterates l = false) :
    (Graph.build p.separateNexts).next (p.headOf id + i) = p.headOf ((Graph.build p).next id) := by
  obtain ⟨hl, hid⟩ := mem_forLoops_of_index hi
  obtain ⟨q, hq, rfl, hlt, hlength⟩ := exists_next_of_index hi h
  have hlast : i + 1 = q.statement.separated.length := by
    by_contra hne
    have hmem : l ∈ ((Graph.build p).loopsClosedBy q.id).dropLast := by
      refine List.mem_of_getElem? (i := i) ?_
      rw [List.getElem?_dropLast, if_pos (by omega), hi]
    rw [hloops l hl l (hid.symm ▸ hmem)] at hiterates
    cases hiterates
  rw [next_headOf_add hq hlt, if_pos hlast]

end Index

theorem next_wendNode {l : WhileLoop} (hl : l ∈ (Graph.build p).whileLoops) :
    (Graph.build p.separateNexts).next (p.headOf l.wendNode) =
      p.headOf ((Graph.build p).next l.wendNode) := by
  have joins := LoopMatching.joins_ofStatements (p.placed.map fun q => (q.id, q.statement))
  obtain ⟨w, hw, hid, _, hc, rfl⟩ := commandAt_placed_iff.1 (joins.whileLoops l hl).2
  refine hid ▸ (next_headOf hw fun counters h => ?_).1
  rw [hc] at h
  cases h

end Loops

/-! ## Edges of the program -/

/-- The edges that statements have of themselves are drawn out one by one. -/
theorem edgesOfList_separateNexts (h : (Graph.build p).issues = []) :
    edgesOfList p.separateNexts.edgeContext 2 Graph.exit p.separateNexts.statements =
      (edgesOfList p.edgeContext 2 Graph.exit p.statements).flatMap (Edge.drawn p.headOf) := by
  have alike : EdgeContext.Alike p.headOf p.edgeContext p.separateNexts.edgeContext :=
    ⟨p.headOf_exit, p.entryOf_separateNexts⟩
  rw [statements_separateNexts]
  refine edgesOfList_separatedList alike 2 Graph.exit 0 p.statements fun q hq => ?_
  refine ⟨hasRoom_of_mem_placed hq, ?_, fun {counters} hc i hi => ?_⟩
  · have hwhile : p.separateNexts.edgeContext.whileLoops =
        p.edgeContext.whileLoops.map fun l => ⟨p.headOf l.whileNode, p.headOf l.wendNode⟩ :=
      whileLoops_separateNexts h
    rw [hwhile, List.any_map]
    congr 1
    funext l
    exact p.strictMono_headOf.injective.beq_eq
  · have hlength := length_loopsClosedBy h hq hc
    have hl := List.getElem?_eq_getElem (hlength.symm ▸ hi)
    have hmem := mem_forLoops_of_index hl
    have hmem' := (mem_forLoops_separateNexts_iff h).2 ⟨q.id, i, _, hl, rfl⟩
    have hcloses : (p.edgeContext.forLoops.any fun l => l.nextNode == q.id) = true :=
      List.any_eq_true.2 ⟨_, hmem.1, beq_iff_eq.2 hmem.2⟩
    rw [hcloses]
    exact List.any_eq_true.2 ⟨_, hmem', beq_self_eq_true _⟩

/-- An edge of the program with separate `NEXT` statements leads on in a row, or it leaves the row
along an edge of the program. -/
inductive Drawn (p : Program) (e' : Edge) : Prop
  | inRow (id : NodeId) : p.StandsFor e'.source id → p.StandsFor e'.target id →
    e'.target = e'.source + 1 → e'.kind ≠ .call → Drawn p e'
  | leaves (e : Edge) : e ∈ p.edges → p.StandsFor e'.source e.source →
    e'.target = p.headOf e.target → e'.kind = e.kind → Drawn p e'

theorem headOf_succ_of_call (he : e ∈ p.edges) (hk : e.kind = .call) :
    p.headOf (e.source + 1) = p.headOf e.source + 1 := by
  obtain ⟨q, hq, hid, hcalls⟩ := (soundEdge_of_mem_edges he).call hk
  exact hid ▸ headOf_succ hq hcalls.ne_next

theorem drawn_of_mem_own {e' : Edge} (he : e ∈ edgesOfList p.edgeContext 2 Graph.exit p.statements)
    (he' : e' ∈ e.drawn p.headOf) : Drawn p e' := by
  obtain ⟨hle, hlt, ht, hk⟩ := Edge.mem_drawn_iff.1 he'
  have hmem : e ∈ p.edges := mem_edges_of_mem_own he
  by_cases hlast : e'.source + 1 = p.headOf (e.source + 1)
  · rw [if_pos hlast] at ht
    exact .leaves e hmem ⟨hle, hlt⟩ ht hk
  · rw [if_neg hlast] at ht
    have hlt' : e'.source + 1 < p.headOf (e.source + 1) := Nat.lt_of_le_of_ne hlt hlast
    refine .inRow e.source ⟨hle, hlt⟩ ⟨?_, ?_⟩ ht fun hcall => ?_
    · exact ht ▸ Nat.le_succ_of_le hle
    · exact ht ▸ hlt'
    · rw [headOf_succ_of_call hmem (hk ▸ hcall)] at hlt'
      exact Nat.not_lt.2 (Nat.succ_le_succ hle) hlt'

theorem drawn_of_mem_loopEdges (h : (Graph.build p).issues = [])
    (hloops : (Graph.build p).InnerLoopsIterate) {e' : Edge}
    (he' : e' ∈ loopEdges p.separateNexts.placed p.separateNexts.matchedLoops) : Drawn p e' := by
  have leaves {e : Edge} (he : e ∈ loopEdges p.placed p.matchedLoops) :
      p.StandsFor e'.source e.source → e'.target = p.headOf e.target → e'.kind = e.kind →
        Drawn p e' :=
    .leaves e (mem_edges_of_mem_loopEdges he)
  rcases mem_loopEdges_iff.1 he' with ⟨l', hl', hedge⟩ | ⟨l', hl', hedge⟩
  · obtain ⟨id, i, l, hi, rfl⟩ := (mem_forLoops_separateNexts_iff h).1 hl'
    obtain ⟨hl, rfl⟩ := mem_forLoops_of_index hi
    rcases hedge with rfl | ⟨hiterates, rfl⟩
    · exact leaves (mem_loopEdges_iff.2 (.inl ⟨l, hl, .inl rfl⟩)) (standsFor_of_index hi h)
        (next_forNode hl) rfl
    · rw [alwaysIterates_headOf hl] at hiterates
      exact leaves (mem_loopEdges_iff.2 (.inl ⟨l, hl, .inr ⟨hiterates, rfl⟩⟩)) (standsFor_headOf _)
        (next_of_passed_by hi h hloops hiterates) rfl
  · rw [whileLoops_separateNexts h] at hl'
    obtain ⟨l, hl, rfl⟩ := List.mem_map.1 hl'
    rcases hedge with rfl | rfl
    · exact leaves (mem_loopEdges_iff.2 (.inr ⟨l, hl, .inl rfl⟩)) (standsFor_headOf _)
        (next_wendNode hl) rfl
    · exact leaves (mem_loopEdges_iff.2 (.inr ⟨l, hl, .inr rfl⟩)) (standsFor_headOf _) rfl rfl

/-- Other statements than `NEXT` stay as they are. -/
theorem renumbers_separateNexts (p : Program) :
    p.Renumbers p.separateNexts p.headOf fun c => ∀ counters, c ≠ some (.next counters) where
  exit := p.headOf_exit
  exists_twin hq hne := by
    obtain ⟨q', hq', h⟩ := exists_standsAlone hq hne
    exact ⟨q', hq', h.toTwin⟩
  exists_origin hq' hne := by
    obtain ⟨q, hq, h⟩ := exists_standsAlone_of_mem hq' hne
    exact ⟨q, hq, h.toTwin⟩
  kept hne _ := hne

/-- Every edge of the program with separate `NEXT` statements is drawn for one of the program, or
leads on in a row. -/
theorem drawn_of_mem_edges (h : (Graph.build p).issues = [])
    (hloops : (Graph.build p).InnerLoopsIterate) {e' : Edge} (he' : e' ∈ p.separateNexts.edges) :
    Drawn p e' := by
  rw [edges, List.mem_cons, List.mem_append, List.mem_append, edgesOfList_separateNexts h] at he'
  rcases he' with rfl | (he' | he') | he'
  · refine .leaves _ List.mem_cons_self (standsFor_headOf Graph.entry) ?_ rfl
    rw [statements_separateNexts, isEmpty_separatedList, apply_ite p.headOf]
    rfl
  · obtain ⟨e, he, he'⟩ := List.mem_flatMap.1 he'
    exact drawn_of_mem_own he he'
  · exact drawn_of_mem_loopEdges h hloops he'
  · obtain ⟨e, he, rfl⟩ := p.renumbers_separateNexts.mem_backEdges_iff.1 he'
    exact .leaves e (mem_edges_of_mem_backEdges he) (standsFor_headOf _) rfl rfl

theorem exists_drawn_of_mem_own (h : (Graph.build p).issues = [])
    (he : e ∈ edgesOfList p.edgeContext 2 Graph.exit p.statements) :
    ∃ n, p.StandsFor n e.source ∧ ⟨n, p.headOf e.target, e.kind⟩ ∈ p.separateNexts.edges := by
  -- the last statement that stands for the source
  have hlt : p.headOf e.source < p.headOf (e.source + 1) := p.strictMono_headOf (Nat.lt_succ_self _)
  have hlast : p.headOf (e.source + 1) - 1 + 1 = p.headOf (e.source + 1) :=
    Nat.succ_pred_eq_of_pos (Nat.zero_lt_of_lt hlt)
  have hstands : p.StandsFor (p.headOf (e.source + 1) - 1) e.source :=
    ⟨Nat.le_pred_of_lt hlt, Nat.lt_of_succ_le (Nat.le_of_eq hlast)⟩
  refine ⟨_, hstands, mem_edges_of_mem_own ?_⟩
  rw [edgesOfList_separateNexts h, List.mem_flatMap]
  exact ⟨e, he, Edge.mem_drawn_iff.2 ⟨hstands.1, hstands.2, (if_pos hlast).symm, rfl⟩⟩

/-- The edge passes by a loop that is not the outermost one of its list, so that it leads into the
row of the list, but not to its start. -/
structure EntersRow (p : Program) (e : Edge) (q : Placed) (n : NodeId) : Prop where
  kind : e.kind = .loopSkip
  target : q.next = e.target
  standsFor : p.StandsFor n q.id
  ne_headOf : n ≠ p.headOf q.id
  mem : ⟨p.headOf e.source, n, e.kind⟩ ∈ p.separateNexts.edges

theorem exists_drawn_of_mem_loopEdges (h : (Graph.build p).issues = [])
    (he : e ∈ loopEdges p.placed p.matchedLoops) :
    (∃ n, p.StandsFor n e.source ∧ ⟨n, p.headOf e.target, e.kind⟩ ∈ p.separateNexts.edges) ∨
      ∃ q ∈ p.placed, ∃ n, p.EntersRow e q n := by
  rcases mem_loopEdges_iff.1 he with ⟨l, hl, hedge⟩ | ⟨l, hl, hedge⟩
  · have hclosed : l ∈ (Graph.build p).loopsClosedBy l.nextNode :=
      List.mem_filter.2 ⟨hl, beq_self_eq_true _⟩
    obtain ⟨i, hi⟩ := List.getElem?_of_mem hclosed
    have hl' := (mem_forLoops_separateNexts_iff h).2 ⟨l.nextNode, i, l, hi, rfl⟩
    rcases hedge with rfl | ⟨hiterates, rfl⟩
    · refine .inl ⟨_, standsFor_of_index hi h, mem_edges_of_mem_loopEdges ?_⟩
      exact mem_loopEdges_iff.2 (.inl ⟨_, hl', .inl (by rw [next_forNode hl])⟩)
    · obtain ⟨q, hq, hid, hlt, -⟩ := exists_next_of_index hi h
      have hskip : ⟨p.headOf l.forNode, (Graph.build p.separateNexts).next (p.headOf q.id + i),
          .loopSkip⟩ ∈ p.separateNexts.edges := by
        rw [hid]
        refine mem_edges_of_mem_loopEdges (mem_loopEdges_iff.2 (.inl ⟨_, hl', .inr ⟨?_, rfl⟩⟩))
        rw [alwaysIterates_headOf hl, hiterates]
      rw [next_headOf_add hq hlt] at hskip
      rw [← hid]
      split at hskip
      next => exact .inl ⟨_, standsFor_headOf _, hskip⟩
      next hlast =>
        refine .inr ⟨q, hq, _, rfl, ?_, ?_, ?_, hskip⟩
        · exact (Graph.next_build_of_mem_placed hq).symm
        · exact (standsFor_add_iff hq).2 (Nat.lt_of_le_of_ne hlt hlast)
        · exact Nat.ne_of_gt (Nat.lt_succ_of_le (Nat.le_add_right _ _))
  · have hl' : ⟨p.headOf l.whileNode, p.headOf l.wendNode⟩ ∈
        (Graph.build p.separateNexts).whileLoops := by
      rw [whileLoops_separateNexts h]
      exact List.mem_map_of_mem hl
    rcases hedge with rfl | rfl
    · refine .inl ⟨_, standsFor_headOf _, mem_edges_of_mem_loopEdges ?_⟩
      exact mem_loopEdges_iff.2 (.inr ⟨_, hl', .inl (by rw [next_wendNode hl])⟩)
    · refine .inl ⟨_, standsFor_headOf _, mem_edges_of_mem_loopEdges ?_⟩
      exact mem_loopEdges_iff.2 (.inr ⟨_, hl', .inr rfl⟩)

/-- Every edge of the program is drawn from one of the statements that stand for its source, or it
leads into a row. -/
theorem exists_drawn (h : (Graph.build p).issues = []) (he : e ∈ p.edges) :
    (∃ n, p.StandsFor n e.source ∧ ⟨n, p.headOf e.target, e.kind⟩ ∈ p.separateNexts.edges) ∨
      ∃ q ∈ p.placed, ∃ n, p.EntersRow e q n := by
  rw [edges, List.mem_cons, List.mem_append, List.mem_append] at he
  rcases he with rfl | (he | he) | he
  · refine .inl ⟨Graph.entry, standsFor_headOf Graph.entry, ?_⟩
    rw [edges, statements_separateNexts, isEmpty_separatedList, apply_ite p.headOf]
    exact List.mem_cons_self
  · exact .inl (exists_drawn_of_mem_own h he)
  · exact exists_drawn_of_mem_loopEdges h he
  · exact .inl ⟨_, standsFor_headOf _,
      mem_edges_of_mem_backEdges (p.renumbers_separateNexts.mem_backEdges_iff.2 ⟨e, he, rfl⟩)⟩

/-- The statements of a row follow each other, and the last one is followed by what follows the
list. -/
theorem exists_row_edge (h : (Graph.build p).issues = []) (hq : q ∈ p.placed)
    {counters : List Name} (hc : q.statement.command? = some (.next counters)) {n : NodeId}
    (hn : p.StandsFor n q.id) :
    ∃ kind, kind ≠ .call ∧
      ⟨n, if n + 1 = p.headOf (q.id + 1) then p.headOf q.next else n + 1, kind⟩ ∈
        p.separateNexts.edges := by
  have hown : ∃ kind, kind ≠ .call ∧ ⟨q.id, q.next, kind⟩ ∈ q.ownEdges p.edgeContext := by
    rcases q with ⟨⟨place, body⟩ | _, id, depth, next⟩
    · obtain rfl : body = .next counters := Option.some.inj hc
      rw [Placed.ownEdges, Statement.ownEdges, EdgeContext.commandEdges]
      split
      · exact ⟨.loopExit, by decide, List.mem_singleton_self _⟩
      · exact ⟨.normal, by decide, List.mem_singleton_self _⟩
    · cases hc
  obtain ⟨kind, hk, hown⟩ := hown
  refine ⟨kind, hk, mem_edges_of_mem_own ?_⟩
  rw [edgesOfList_separateNexts h, List.mem_flatMap]
  refine ⟨_, (mem_edgesOfList_iff _ _ _ 0 _).2 (List.mem_flatMap.2 ⟨q, hq, hown⟩), ?_⟩
  exact Edge.mem_drawn_iff.2 ⟨hn.1, hn.2, rfl, rfl⟩

end Program

end LineBasic
