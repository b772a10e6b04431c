import LineBasic.Proofs.Graph.LoopMatching
import LineBasic.Proofs.Graph.Numbering

/-!
# The edges of a graph

Every edge leads to a node of the graph, calls start at `GOSUB` and `ON GOSUB` only, and a `RETURN`
has no edges but those of its own kind (`Program.soundEdge_of_mem_edges`). These lead to all the
places where a calling statement goes on (`Program.back_mem_edges`).
-/

namespace LineBasic

/-! ## Edges that a statement has of itself -/

/-- The edges of a statement without those of the statements inside it. -/
def Statement.ownEdges (ctx : EdgeContext) (id next : NodeId) : Statement → List Edge
  | .command _ body => ctx.commandEdges id next body
  | .conditional _ _ onTrue none =>
    [ctx.armEdge id (id + 1) next .thenArm onTrue, ⟨id, next, .elseArm⟩]
  | .conditional _ _ onTrue (some onFalse) =>
    [ctx.armEdge id (id + 1) next .thenArm onTrue,
      ctx.armEdge id (id + 1 + onTrue.nodeCount) next .elseArm onFalse]

def Placed.ownEdges (ctx : EdgeContext) (q : Placed) : List Edge :=
  q.statement.ownEdges ctx q.id q.next

mutual

theorem Statement.mem_edges_iff (ctx : EdgeContext) (id next depth : Nat) {e : Edge} :
    ∀ s : Statement,
      e ∈ s.edges ctx id next ↔ e ∈ (s.placed id next depth).flatMap (Placed.ownEdges ctx)
  | .command place body => by
    rw [Statement.edges, Statement.placed, List.flatMap_singleton]
    rfl
  | .conditional place condition onTrue none => by
    rw [Statement.edges, Statement.placed, List.flatMap_cons, List.mem_append, List.mem_append,
      List.mem_cons, onTrue.mem_edges_iff ctx (id + 1) next (depth + 1), or_right_comm]
    simp [Placed.ownEdges, Statement.ownEdges]
  | .conditional place condition onTrue (some onFalse) => by
    rw [Statement.edges, Statement.placed, List.flatMap_cons, List.flatMap_append]
    simp only [List.mem_append, List.mem_cons]
    rw [onTrue.mem_edges_iff ctx (id + 1) next (depth + 1),
      onFalse.mem_edges_iff ctx _ next (depth + 1), or_or_or_comm]
    simp [Placed.ownEdges, Statement.ownEdges]

theorem Arm.mem_edges_iff (ctx : EdgeContext) (id next depth : Nat) {e : Edge} :
    ∀ a : Arm,
      e ∈ a.edges ctx id next ↔ e ∈ (a.placed id next depth).flatMap (Placed.ownEdges ctx)
  | .line _ => Iff.rfl
  | .block statements => by
    rw [Arm.edges, Arm.placed]
    exact mem_edgesOfList_iff ctx id next depth statements

/-- The edges of statements in a list are those of the single statements. -/
theorem mem_edgesOfList_iff (ctx : EdgeContext) (id next depth : Nat) {e : Edge} :
    ∀ statements : List Statement, e ∈ edgesOfList ctx id next statements ↔
      e ∈ (placedList id next depth statements).flatMap (Placed.ownEdges ctx)
  | [] => Iff.rfl
  | s :: rest => by
    rw [edgesOfList, placedList, List.flatMap_append, List.mem_append, List.mem_append,
      s.mem_edges_iff ctx id _ depth, mem_edgesOfList_iff ctx _ next depth rest]

end

/-! ## What single edges are -/

/-- The command calls a subroutine. -/
def Command.IsCall (c : Command) : Prop :=
  (∃ line, c = gosub line) ∨ ∃ selector lines, c = onGosub selector lines

/-- What all edges that a command has of itself have in common. -/
structure EdgeContext.OfCommand (ctx : EdgeContext) (id next : NodeId) (c : Command) (e : Edge) :
    Prop where
  source_eq : e.source = id
  target_eq : e.target = next ∨ e.target = Graph.exit ∨ ∃ line, e.target = ctx.entryOf line
  isCall : e.kind = .call → c.IsCall
  kind_ne : e.kind ≠ .back

theorem EdgeContext.ofCommand_of_mem (ctx : EdgeContext) (id next : NodeId) (c : Command) :
    ∀ e ∈ ctx.commandEdges id next c, ctx.OfCommand id next c e := by
  have toNext (kind : EdgeKind) (hc : kind ≠ .call) (hb : kind ≠ .back) :
      ctx.OfCommand id next c ⟨id, next, kind⟩ :=
    ⟨rfl, .inl rfl, fun h => absurd h hc, hb⟩
  have toLine (line : Nat) (kind : EdgeKind) (hc : kind = .call → c.IsCall) (hb : kind ≠ .back) :
      ctx.OfCommand id next c ⟨id, ctx.entryOf line, kind⟩ :=
    ⟨rfl, .inr (.inr ⟨line, rfl⟩), hc, hb⟩
  have single {e e' : Edge} (he : e ∈ [e']) (h : ctx.OfCommand id next c e') :
      ctx.OfCommand id next c e := List.mem_singleton.1 he ▸ h
  intro e he
  unfold commandEdges at he
  split at he
  next line => exact single he (toLine line _ nofun nofun)
  next line => exact single he (toLine line _ (fun _ => .inl ⟨line, rfl⟩) nofun)
  next selector lines =>
    rcases List.mem_append.1 he with he | he
    · obtain ⟨line, -, rfl⟩ := List.mem_map.1 he
      exact toLine line _ nofun nofun
    · exact single he (toNext _ nofun nofun)
  next selector lines =>
    rcases List.mem_append.1 he with he | he
    · obtain ⟨line, -, rfl⟩ := List.mem_map.1 he
      exact toLine line _ (fun _ => .inr ⟨selector, lines, rfl⟩) nofun
    · exact single he (toNext _ nofun nofun)
  next => exact single he ⟨rfl, .inr (.inl rfl), nofun, nofun⟩
  next => exact single he ⟨rfl, .inr (.inl rfl), nofun, nofun⟩
  next line =>
    rcases List.mem_cons.1 he with rfl | he
    · exact toNext _ nofun nofun
    · split at he
      · simp at he
      · exact single he (toLine line _ nofun nofun)
  next line => exact single he (toLine line _ nofun nofun)
  next => split at he <;> exact single he (toNext _ nofun nofun)
  next =>
    split at he
    · simp at he
    · exact single he (toNext _ nofun nofun)
  next => simp at he
  next => simp at he
  next => exact single he (toNext _ nofun nofun)

/-- The lines that a command calls. -/
def Command.calledLines : Command → List Nat
  | .gosub line => [line]
  | .onGosub _ lines => lines
  | _ => []

theorem EdgeContext.calledLine_of_mem_commandEdges (ctx : EdgeContext) {id next : NodeId}
    {c : Command} {e : Edge} (he : e ∈ ctx.commandEdges id next c) (hk : e.kind = .call) :
    ∃ line ∈ c.calledLines, e.target = ctx.entryOf line := by
  obtain ⟨line, rfl⟩ | ⟨selector, lines, rfl⟩ := (ctx.ofCommand_of_mem id next c e he).isCall hk
  · obtain rfl := List.mem_singleton.1 he
    exact ⟨line, List.mem_singleton_self _, rfl⟩
  · rcases List.mem_append.1 he with he | he
    · obtain ⟨line, hline, rfl⟩ := List.mem_map.1 he
      exact ⟨line, hline, rfl⟩
    · obtain rfl := List.mem_singleton.1 he
      cases hk

namespace Placed

/-- The statement calls a subroutine. -/
def Calls (q : Placed) : Prop := ∃ c, q.statement.command? = some c ∧ c.IsCall

/-- The statement is a `RETURN`. -/
def Returns (q : Placed) : Prop := q.statement.command? = some .returnSub

end Placed

namespace Program

variable {p : Program} {q q' : Placed} {e : Edge}

/-- What holds of all edges of a graph. -/
structure SoundEdge (p : Program) (e : Edge) : Prop where
  source : e.source = Graph.entry ∨ ∃ q ∈ p.placed, q.id = e.source
  target : p.IsTarget e.target
  call : e.kind = .call → ∃ q ∈ p.placed, q.id = e.source ∧ q.Calls
  back : ∀ q ∈ p.placed, q.id = e.source → q.Returns → e.kind = .back

theorem isTarget_armEdge {id first next : NodeId} {kind : EdgeKind} {arm : Arm}
    (hnext : p.IsTarget next) (hpos : 2 ≤ first) (hfirst : first + arm.nodeCount ≤ p.nodeCount) :
    p.IsTarget (p.edgeContext.armEdge id first next kind arm).target := by
  rcases arm with line | _ | ⟨s, rest⟩
  · exact isTarget_entryOf line
  · exact hnext
  · have hs := s.nodeCount_pos
    rw [Arm.nodeCount, nodeCountOfList] at hfirst
    have hlt : first < first + (s.nodeCount + nodeCountOfList rest) :=
      Nat.lt_add_of_pos_right (Nat.add_pos_left hs _)
    exact isTarget_of_two_le hpos (Nat.lt_of_lt_of_le hlt hfirst)

theorem soundEdge_of_mem_ownEdges (hq : q ∈ p.placed) (he : e ∈ q.ownEdges p.edgeContext) :
    p.SoundEdge e := by
  have hend : q.id + q.statement.nodeCount ≤ p.nodeCount := (within_of_mem_placed hq).end_le
  rcases q with ⟨⟨place, body⟩ | ⟨place, condition, onTrue, onFalse⟩, id, depth, next⟩
  · have h := p.edgeContext.ofCommand_of_mem id next body e he
    refine ⟨.inr ⟨_, hq, h.source_eq.symm⟩, ?_,
      fun hk => ⟨_, hq, h.source_eq.symm, body, rfl, h.isCall hk⟩, ?_⟩
    · rcases h.target_eq with ht | ht | ⟨line, ht⟩ <;> rw [ht]
      · exact isTarget_next hq
      · exact isTarget_exit
      · exact isTarget_entryOf line
    · intro q' hq' hid hr
      obtain rfl := eq_of_id_eq hq hq' (hid.trans h.source_eq).symm
      obtain rfl : body = .returnSub := Option.some.inj hr
      exact absurd he (by simp [Placed.ownEdges, Statement.ownEdges, EdgeContext.commandEdges])
  · -- the edges into the arms; a condition is neither a call nor a `RETURN`
    have arm {e : Edge} (ht : p.IsTarget e.target) (hs : e.source = id) (hk : e.kind ≠ .call) :
        p.SoundEdge e := by
      refine ⟨.inr ⟨_, hq, hs.symm⟩, ht, fun h => absurd h hk, fun q' hq' hid hr => ?_⟩
      obtain rfl := eq_of_id_eq hq hq' (hid.trans hs).symm
      exact absurd hr nofun
    have hnext : p.IsTarget next := isTarget_next hq
    have hpos : 2 ≤ id := two_le_id hq
    have hthen (hcount : id + 1 + onTrue.nodeCount ≤ p.nodeCount) :
        p.SoundEdge (p.edgeContext.armEdge id (id + 1) next .thenArm onTrue) :=
      arm (isTarget_armEdge hnext (Nat.le_succ_of_le hpos) hcount)
        (by rcases onTrue with _ | _ | _ <;> rfl) (by rcases onTrue with _ | _ | _ <;> nofun)
    rcases onFalse with _ | onFalse
    · rw [Placed.ownEdges, Statement.ownEdges, List.mem_cons, List.mem_singleton] at he
      rw [Statement.nodeCount, ← Nat.add_assoc] at hend
      rcases he with rfl | rfl
      · exact hthen hend
      · exact arm hnext rfl nofun
    · rw [Placed.ownEdges, Statement.ownEdges, List.mem_cons, List.mem_singleton] at he
      rw [Statement.nodeCount, ← Nat.add_assoc, ← Nat.add_assoc] at hend
      rcases he with rfl | rfl
      · exact hthen (Nat.le_trans (Nat.le_add_right _ _) hend)
      · exact arm (isTarget_armEdge hnext (Nat.le_add_right_of_le (Nat.le_succ_of_le hpos)) hend)
          (by rcases onFalse with _ | _ | _ <;> rfl) (by rcases onFalse with _ | _ | _ <;> nofun)

/-! ## Edges of loops -/

theorem commandAt_placed_iff {id : NodeId} {holds : Command → Prop} :
    CommandAt (p.placed.map fun q => (q.id, q.statement)) id holds ↔
      ∃ q ∈ p.placed, q.id = id ∧ ∃ c, q.statement.command? = some c ∧ holds c := by
  constructor
  · rintro ⟨s, c, hs, hc, h⟩
    obtain ⟨q, hq, heq⟩ := List.mem_map.1 hs
    obtain ⟨rfl, rfl⟩ := Prod.mk.inj heq
    exact ⟨q, hq, rfl, c, hc, h⟩
  · rintro ⟨q, hq, rfl, c, hc, h⟩
    exact ⟨q.statement, c, List.mem_map.2 ⟨q, hq, rfl⟩, hc, h⟩

/-- A loop begins at a `FOR` for its counter. -/
theorem exists_for_of_mem_forLoops {l : ForLoop} (hl : l ∈ p.matchedLoops.forLoops) :
    ∃ q ∈ p.placed, q.id = l.forNode ∧
      ∃ c, q.statement.command? = some c ∧ c.IsFor l.counter :=
  commandAt_placed_iff.1 ((LoopMatching.joins_ofStatements _).forLoops l hl).1

/-- A loop is closed by a `NEXT` for its counter. -/
theorem exists_next_of_mem_forLoops {l : ForLoop} (hl : l ∈ p.matchedLoops.forLoops) :
    ∃ q ∈ p.placed, q.id = l.nextNode ∧
      ∃ c, q.statement.command? = some c ∧ c.IsNext l.counter :=
  commandAt_placed_iff.1 ((LoopMatching.joins_ofStatements _).forLoops l hl).2

/-- An edge from a statement that is no `RETURN`, and that is no call. -/
theorem soundEdge_of_commandAt {holds : Command → Prop}
    (hs : CommandAt (p.placed.map fun q => (q.id, q.statement)) e.source holds)
    (hreturn : ¬ holds .returnSub) (hk : e.kind ≠ .call) (ht : p.IsTarget e.target) :
    p.SoundEdge e := by
  obtain ⟨q, hq, hid', c, hc, h⟩ := commandAt_placed_iff.1 hs
  refine ⟨.inr ⟨q, hq, hid'⟩, ht, fun h => absurd h hk, fun q' hq' hid hr => ?_⟩
  obtain rfl := eq_of_id_eq hq hq' (hid'.trans hid.symm)
  obtain rfl : c = .returnSub := Option.some.inj (hc.symm.trans hr)
  exact absurd h hreturn

theorem soundEdge_of_mem_loopEdges (he : e ∈ loopEdges p.placed p.matchedLoops) :
    p.SoundEdge e := by
  have joins := LoopMatching.joins_ofStatements (p.placed.map fun q => (q.id, q.statement))
  have isTarget (id : NodeId) :
      p.IsTarget ((p.placed.find? fun q => q.id == id).elim Graph.exit Placed.next) := by
    rcases h : p.placed.find? fun q => q.id == id with _ | q <;> rw [h]
    · exact isTarget_exit
    · exact isTarget_next (List.mem_of_find?_eq_some h)
  rw [loopEdges, List.mem_append, List.mem_flatMap, List.mem_flatMap] at he
  rcases he with ⟨l, hl, he⟩ | ⟨l, hl, he⟩
  · obtain ⟨hfor, hnext⟩ := joins.forLoops l hl
    rcases List.mem_cons.1 he with rfl | he
    · exact soundEdge_of_commandAt hnext nofun nofun (isTarget _)
    · split at he
      · simp at he
      · rw [List.mem_singleton] at he
        subst he
        exact soundEdge_of_commandAt hfor nofun nofun (isTarget _)
  · obtain ⟨hwhile, hwend⟩ := joins.whileLoops l hl
    rw [List.mem_cons, List.mem_singleton] at he
    rcases he with rfl | rfl
    · exact soundEdge_of_commandAt hwhile nofun nofun (isTarget _)
    · obtain ⟨q, hq, hid, -⟩ := commandAt_placed_iff.1 hwhile
      exact soundEdge_of_commandAt hwend nofun nofun (hid ▸ isTarget_id hq)

/-! ## Edges of `RETURN` -/

theorem mem_returnPoints_iff {placed : List Placed} {id : NodeId} :
    id ∈ returnPoints placed ↔ ∃ q ∈ placed, q.Calls ∧ q.next = id := by
  rw [returnPoints, Std.ExtTreeSet.mem_toList, Std.ExtTreeSet.mem_ofList, List.contains_iff_mem,
    List.mem_filterMap]
  refine exists_congr fun q => and_congr_right fun _ => ?_
  split
  next line hc =>
    have : q.Calls := ⟨_, hc, .inl ⟨line, rfl⟩⟩
    simp [this]
  next selector lines hc =>
    have : q.Calls := ⟨_, hc, .inr ⟨selector, lines, rfl⟩⟩
    simp [this]
  next hgosub honGosub =>
    have : ¬ q.Calls := by
      rintro ⟨c, hc, ⟨line, rfl⟩ | ⟨selector, lines, rfl⟩⟩
      · exact hgosub line hc
      · exact honGosub selector lines hc
    simp [this]

theorem mem_resumePoints_iff {placed : List Placed} {id : NodeId} :
    id ∈ resumePoints placed ↔
      ∃ q ∈ placed, (∃ line, q.statement.command? = some (.onError line) ∧ line ≠ 0) ∧
        q.next = id := by
  rw [resumePoints, Std.ExtTreeSet.mem_toList, Std.ExtTreeSet.mem_ofList, List.contains_iff_mem,
    List.mem_filterMap]
  refine exists_congr fun q => and_congr_right fun _ => ?_
  split
  next line hc => by_cases hline : line = 0 <;> simp [hc, hline]
  next hc =>
    have : ¬ ∃ line, q.statement.command? = some (.onError line) ∧ line ≠ 0 :=
      fun ⟨line, h, _⟩ => hc line h
    simp [this]

theorem mem_leadingEdges_iff {id : NodeId} {kind : EdgeKind} {targets : List NodeId} :
    e ∈ leadingEdges id kind targets ↔ e.source = id ∧ e.kind = kind ∧
      (targets = [] ∧ e.target = Graph.exit ∨ e.target ∈ targets) := by
  obtain ⟨source, target, kind'⟩ := e
  cases targets with
  | nil => simp [leadingEdges, and_comm]
  | cons first rest =>
    simp only [leadingEdges, List.mem_map, Edge.mk.injEq, reduceCtorEq, false_and, false_or]
    constructor
    · rintro ⟨target, ht, rfl, rfl, rfl⟩
      exact ⟨rfl, rfl, ht⟩
    · rintro ⟨rfl, rfl, ht⟩
      exact ⟨target, ht, rfl, rfl, rfl⟩

theorem mem_backEdges_iff {placed : List Placed} :
    e ∈ backEdges placed ↔ ∃ q ∈ placed,
      q.Returns ∧ e ∈ leadingEdges q.id .back (returnPoints placed) ∨
        (∃ point, q.statement.command? = some (.resume point) ∧ ∀ line, point ≠ .line line) ∧
          e ∈ leadingEdges q.id .resume (resumePoints placed) := by
  rw [backEdges, List.mem_flatMap]
  refine exists_congr fun q => and_congr_right fun _ => ?_
  rw [Placed.Returns]
  split
  next hc => simp [hc]
  next hc => simp [hc]
  next hc => simp [hc]
  next hreturn hretry hnext =>
    refine iff_of_false List.not_mem_nil ?_
    rintro (⟨hc, -⟩ | ⟨⟨_ | _ | line, hc, hline⟩, -⟩)
    · exact hreturn hc
    · exact hretry hc
    · exact hnext hc
    · exact hline line rfl

theorem soundEdge_of_mem_backEdges (he : e ∈ backEdges p.placed) : p.SoundEdge e := by
  have isTarget {id : NodeId} {kind : EdgeKind} {targets : List NodeId}
      (he : e ∈ leadingEdges id kind targets)
      (htargets : ∀ t ∈ targets, ∃ q ∈ p.placed, q.next = t) : p.IsTarget e.target := by
    rcases (mem_leadingEdges_iff.1 he).2.2 with ⟨-, ht⟩ | ht
    · exact ht ▸ isTarget_exit
    · obtain ⟨q, hq, hnext⟩ := htargets _ ht
      exact hnext ▸ isTarget_next hq
  obtain ⟨q, hq, ⟨-, he⟩ | ⟨⟨point, hc, -⟩, he⟩⟩ := mem_backEdges_iff.1 he
  · obtain ⟨hs, hk, -⟩ := mem_leadingEdges_iff.1 he
    refine ⟨.inr ⟨q, hq, hs.symm⟩, isTarget he fun t ht => ?_, fun h => absurd (hk ▸ h) nofun,
      fun _ _ _ _ => hk⟩
    obtain ⟨q', hq', -, hnext⟩ := mem_returnPoints_iff.1 ht
    exact ⟨q', hq', hnext⟩
  · obtain ⟨hs, hk, -⟩ := mem_leadingEdges_iff.1 he
    refine soundEdge_of_commandAt
      (commandAt_placed_iff.2 ⟨q, hq, hs.symm, .resume point, hc, (rfl : _ = Command.resume point)⟩)
      nofun (hk ▸ nofun) (isTarget he fun t ht => ?_)
    obtain ⟨q', hq', -, hnext⟩ := mem_resumePoints_iff.1 ht
    exact ⟨q', hq', hnext⟩

theorem soundEdge_of_mem_edges (he : e ∈ p.edges) : p.SoundEdge e := by
  rw [edges, List.mem_cons, List.mem_append, List.mem_append] at he
  rcases he with rfl | (he | he) | he
  · have hpos {q : Placed} (hq : q ∈ p.placed) : Graph.entry < q.id :=
      Nat.lt_of_lt_of_le Nat.two_pos (two_le_id hq)
    refine ⟨.inl rfl, ?_, nofun, fun q hq hid => absurd hid (Nat.ne_of_gt (hpos hq))⟩
    rcases h : p.statements with _ | ⟨s, rest⟩
    · exact isTarget_exit
    · have hs := s.nodeCount_pos
      refine isTarget_of_two_le (Nat.le_refl 2) ?_
      rw [h, nodeCountOfList]
      exact Nat.lt_add_of_pos_right (Nat.add_pos_left hs _)
  · obtain ⟨q, hq, he⟩ := List.mem_flatMap.1 ((mem_edgesOfList_iff _ _ _ 0 _).1 he)
    exact soundEdge_of_mem_ownEdges hq he
  · exact soundEdge_of_mem_loopEdges he
  · exact soundEdge_of_mem_backEdges he

theorem mem_edges_of_mem_own (he : e ∈ edgesOfList p.edgeContext 2 Graph.exit p.statements) :
    e ∈ p.edges :=
  List.mem_cons_of_mem _ (List.mem_append_left _ (List.mem_append_left _ he))

theorem mem_edges_of_mem_loopEdges (he : e ∈ loopEdges p.placed p.matchedLoops) : e ∈ p.edges :=
  List.mem_cons_of_mem _ (List.mem_append_left _ (List.mem_append_right _ he))

theorem mem_edges_of_mem_backEdges (he : e ∈ backEdges p.placed) : e ∈ p.edges :=
  List.mem_cons_of_mem _ (List.mem_append_right _ he)

theorem mem_edges_of_mem_ownEdges (hq : q ∈ p.placed) (he : e ∈ q.ownEdges p.edgeContext) :
    e ∈ p.edges :=
  mem_edges_of_mem_own ((mem_edgesOfList_iff _ _ _ 0 _).2 (List.mem_flatMap.2 ⟨q, hq, he⟩))

/-- A `RETURN` may go on after every statement that calls a subroutine. -/
theorem back_mem_edges (hq : q ∈ p.placed) (hr : q.Returns) (hq' : q' ∈ p.placed) (hc : q'.Calls) :
    ⟨q.id, q'.next, .back⟩ ∈ p.edges := by
  have hpoint : q'.next ∈ returnPoints p.placed := mem_returnPoints_iff.2 ⟨q', hq', hc, rfl⟩
  exact mem_edges_of_mem_backEdges (mem_backEdges_iff.2
    ⟨q, hq, .inl ⟨hr, mem_leadingEdges_iff.2 ⟨rfl, rfl, .inr hpoint⟩⟩⟩)

/-- A `RESUME` without a line may go on after every `ON ERROR` that sets a handler. -/
theorem resume_mem_edges (hq : q ∈ p.placed) {point : ResumePoint}
    (hc : q.statement.command? = some (.resume point)) (hpoint : ∀ line, point ≠ .line line)
    (hq' : q' ∈ p.placed) {line : Nat} (hc' : q'.statement.command? = some (.onError line))
    (hline : line ≠ 0) : ⟨q.id, q'.next, .resume⟩ ∈ p.edges := by
  have hmem : q'.next ∈ resumePoints p.placed :=
    mem_resumePoints_iff.2 ⟨q', hq', ⟨line, hc', hline⟩, rfl⟩
  exact mem_edges_of_mem_backEdges (mem_backEdges_iff.2
    ⟨q, hq, .inr ⟨⟨point, hc, hpoint⟩, mem_leadingEdges_iff.2 ⟨rfl, rfl, .inr hmem⟩⟩⟩)

/-! ## Calls and returns -/

theorem kind_of_mem_loopEdges {placed : List Placed} {m : LoopMatching}
    (he : e ∈ loopEdges placed m) : e.kind ≠ .call ∧ e.kind ≠ .back := by
  rw [loopEdges, List.mem_append, List.mem_flatMap, List.mem_flatMap] at he
  rcases he with ⟨l, -, he⟩ | ⟨l, -, he⟩
  · rcases List.mem_cons.1 he with rfl | he
    · exact ⟨nofun, nofun⟩
    · split at he
      · cases he
      · obtain rfl := List.mem_singleton.1 he
        exact ⟨nofun, nofun⟩
  · rw [List.mem_cons, List.mem_singleton] at he
    rcases he with rfl | rfl <;> exact ⟨nofun, nofun⟩

/-- An edge that a statement has of itself is no return, and a call leads to a line that the
statement calls. -/
theorem calledLine_of_mem_ownEdges {ctx : EdgeContext} (he : e ∈ q.ownEdges ctx) :
    e.source = q.id ∧ e.kind ≠ .back ∧ (e.kind = .call → ∃ c, q.statement.command? = some c ∧
      ∃ line ∈ c.calledLines, e.target = ctx.entryOf line) := by
  rcases q with ⟨⟨place, body⟩ | ⟨place, condition, onTrue, onFalse⟩, id, depth, next⟩
  · have h := ctx.ofCommand_of_mem id next body e he
    exact ⟨h.source_eq, h.kind_ne, fun hk =>
      ⟨body, rfl, ctx.calledLine_of_mem_commandEdges he hk⟩⟩
  · have ofArm {e : Edge} (hs : e.source = id) (hk : e.kind = .thenArm ∨ e.kind = .elseArm) :
        e.source = id ∧ e.kind ≠ .back ∧ (e.kind = .call → ∃ c : Command, none = some c ∧
          ∃ line ∈ c.calledLines, e.target = ctx.entryOf line) := by
      refine ⟨hs, ?_, ?_⟩ <;> rcases hk with hk | hk <;> rw [hk] <;> nofun
    have armEdge (first : Nat) (kind : EdgeKind) (arm : Arm) :
        (ctx.armEdge id first next kind arm).source = id ∧
          (ctx.armEdge id first next kind arm).kind = kind := by
      rcases arm with _ | _ | _ <;> exact ⟨rfl, rfl⟩
    rcases onFalse with _ | onFalse
    · rw [Placed.ownEdges, Statement.ownEdges, List.mem_cons, List.mem_singleton] at he
      rcases he with rfl | rfl
      · exact ofArm (armEdge _ _ _).1 (.inl (armEdge _ _ _).2)
      · exact ofArm rfl (.inr rfl)
    · rw [Placed.ownEdges, Statement.ownEdges, List.mem_cons, List.mem_singleton] at he
      rcases he with rfl | rfl
      · exact ofArm (armEdge _ _ _).1 (.inl (armEdge _ _ _).2)
      · exact ofArm (armEdge _ _ _).1 (.inr (armEdge _ _ _).2)

/-- An edge of the kind of a `RETURN` begins at one. -/
theorem returns_of_mem_edges (he : e ∈ p.edges) (hk : e.kind = .back) :
    ∃ q ∈ p.placed, q.id = e.source ∧ q.Returns := by
  rw [edges, List.mem_cons, List.mem_append, List.mem_append] at he
  rcases he with rfl | (he | he) | he
  · cases hk
  · obtain ⟨q, -, he⟩ := List.mem_flatMap.1 ((mem_edgesOfList_iff _ _ _ 0 _).1 he)
    exact absurd hk (calledLine_of_mem_ownEdges he).2.1
  · exact absurd hk (kind_of_mem_loopEdges he).2
  · obtain ⟨q, hq, ⟨hr, he⟩ | ⟨-, he⟩⟩ := mem_backEdges_iff.1 he
    · exact ⟨q, hq, (mem_leadingEdges_iff.1 he).1.symm, hr⟩
    · rw [(mem_leadingEdges_iff.1 he).2.1] at hk
      cases hk

/-- A call leads to where a line that its statement calls is entered. -/
theorem calledLine_of_mem_edges (he : e ∈ p.edges) (hk : e.kind = .call) :
    ∃ q ∈ p.placed, q.id = e.source ∧ ∃ c, q.statement.command? = some c ∧
      ∃ line ∈ c.calledLines, e.target = p.edgeContext.entryOf line := by
  rw [edges, List.mem_cons, List.mem_append, List.mem_append] at he
  rcases he with rfl | (he | he) | he
  · cases hk
  · obtain ⟨q, hq, he⟩ := List.mem_flatMap.1 ((mem_edgesOfList_iff _ _ _ 0 _).1 he)
    obtain ⟨hs, -, hcall⟩ := calledLine_of_mem_ownEdges he
    exact ⟨q, hq, hs.symm, hcall hk⟩
  · exact absurd hk (kind_of_mem_loopEdges he).1
  · obtain ⟨q, -, ⟨-, he⟩ | ⟨-, he⟩⟩ := mem_backEdges_iff.1 he <;>
    · rw [(mem_leadingEdges_iff.1 he).2.1] at hk
      cases hk

end Program
end LineBasic
