import LineBasic.Proofs.Graph.SpelledOut

/-!
# Edges with arms spelled out

Edges of a program are edges of the program as spelled out under the new numbers, except that an
edge into an arm that is a line number leads to the `GOTO` for the line, which leads on
(`Program.exists_spelledAs`, `Program.spelledAs_or_jump`).
-/

namespace LineBasic

/-- The edge leads to what stands for the target of another edge or, if that one leads to a line as
an arm, to the `GOTO` for the line. -/
structure Edge.SpelledAs (p : Program) (e e' : Edge) : Prop where
  source : e'.source = p.spelledId e.source
  kind : e'.kind = e.kind
  target : e'.target = p.spelledId e.target ∨ (e.kind = .thenArm ∨ e.kind = .elseArm) ∧
    ∃ line, JumpIn p.pairs e'.target line ∧ e.target = p.edgeContext.entryOf line

/-- Of two lists related item by item, each has a related item in the other one. -/
theorem exists_mem_of_forall₂ {α β : Type} {R : α → β → Prop} {as : List α} {bs : List β}
    (h : List.Forall₂ R as bs) : (∀ a ∈ as, ∃ b ∈ bs, R a b) ∧ ∀ b ∈ bs, ∃ a ∈ as, R a b := by
  induction h with
  | nil => exact ⟨nofun, nofun⟩
  | cons hfirst _ ih =>
    simp only [List.forall_mem_cons, List.exists_mem_cons_iff]
    exact ⟨⟨.inl hfirst, fun a ha => .inr (ih.1 a ha)⟩, .inl hfirst, fun b hb => .inr (ih.2 b hb)⟩

namespace Program

variable {p : Program} {q q' : Placed} {e e' : Edge}

theorem spelledAs_renumbered (p : Program) (e : Edge) : e.SpelledAs p (e.renumbered p.spelledId) :=
  ⟨rfl, rfl, .inl rfl⟩

/-! ## Edges that a statement has of itself -/

theorem alike_spelledOut (p : Program) :
    EdgeContext.Alike p.spelledId p.edgeContext p.spelledOut.edgeContext :=
  ⟨p.spelledId_exit, p.entryOf_spelledOut⟩

theorem spelledAs_armEdge {id id' first first' next next' line : Nat} {kind : EdgeKind}
    (hkind : kind = .thenArm ∨ kind = .elseArm) (hid : id' = p.spelledId id)
    (hnext : next' = p.spelledId next) {a : Arm} (ha : a.LeadsTo p.pairs p.spelledId first first') :
    (p.edgeContext.armEdge id first next kind a).SpelledAs p
      (p.spelledOut.edgeContext.armEdge id' first' next' kind (a.spelledOut line)) := by
  rcases a with number | _ | _
  · exact ⟨hid, rfl, .inr ⟨hkind, number, ha, rfl⟩⟩
  · exact ⟨hid, rfl, .inl hnext⟩
  · exact ⟨hid, rfl, .inl ha⟩

theorem commandEdges_spelledOut (id next : NodeId) (c : Command) :
    p.spelledOut.edgeContext.commandEdges (p.spelledId id) (p.spelledId next) c =
      (p.edgeContext.commandEdges id next c).map (Edge.renumbered p.spelledId) := by
  have hfor : p.spelledOut.edgeContext.forLoops =
      p.edgeContext.forLoops.map (ForLoop.renumbered p.spelledId) :=
    congrArg LoopMatching.forLoops p.matchedLoops_spelledOut
  have hwhile : p.spelledOut.edgeContext.whileLoops =
      p.edgeContext.whileLoops.map (WhileLoop.renumbered p.spelledId) :=
    congrArg LoopMatching.whileLoops p.matchedLoops_spelledOut
  refine p.alike_spelledOut.commandEdges (fun _ => ?_) ?_
  · rw [hfor, List.any_map]
    exact congrArg p.edgeContext.forLoops.any
      (funext fun l => p.strictMono_spelledId.injective.beq_eq)
  · rw [hwhile, List.any_map]
    exact congrArg p.edgeContext.whileLoops.any
      (funext fun l => p.strictMono_spelledId.injective.beq_eq)

/-- The edges of a statement and of what stands for it, one by one. -/
theorem forall₂_ownEdges (h : q'.Spells p.pairs p.spelledId q) :
    List.Forall₂ (Edge.SpelledAs p) (q.ownEdges p.edgeContext)
      (q'.ownEdges p.spelledOut.edgeContext) := by
  obtain ⟨s, id, depth, next⟩ := q
  obtain ⟨s', id', depth', next'⟩ := q'
  obtain rfl : s' = s.spelledOut := h.statement
  obtain rfl : id' = p.spelledId id := h.id_eq
  obtain rfl : next' = p.spelledId next := h.next_eq
  rcases s with ⟨place, body⟩ | ⟨place, condition, onTrue, _ | onFalse⟩
  · show List.Forall₂ _ (p.edgeContext.commandEdges id next body)
      (p.spelledOut.edgeContext.commandEdges (p.spelledId id) (p.spelledId next) body)
    rw [commandEdges_spelledOut, List.forall₂_map_right_iff, List.forall₂_same]
    exact fun e _ => p.spelledAs_renumbered e
  · exact .cons (spelledAs_armEdge (.inl rfl) rfl rfl (h.onTrue rfl))
      (.cons (p.spelledAs_renumbered _) .nil)
  · exact .cons (spelledAs_armEdge (.inl rfl) rfl rfl (h.onTrue rfl))
      (.cons (spelledAs_armEdge (.inr rfl) rfl rfl (h.onFalse rfl)) .nil)

/-! ## Edges of loops -/

/-- What stands for a statement has its command and leads where it leads. -/
theorem next_spelledId (hq : q ∈ p.placed) :
    (Graph.build p.spelledOut).next (p.spelledId q.id) = p.spelledId ((Graph.build p).next q.id) ∧
      ((Graph.build p.spelledOut).node? (p.spelledId q.id)).bind Node.command? =
        ((Graph.build p).node? q.id).bind Node.command? := by
  obtain ⟨q', hq', h⟩ := exists_spells hq
  rw [← h.id_eq, Graph.next_build_of_mem_placed hq', Graph.next_build_of_mem_placed hq,
    Graph.node?_build_of_mem_placed hq', Graph.node?_build_of_mem_placed hq]
  exact ⟨h.next_eq, h.command⟩

theorem forLoops_spelledOut (p : Program) : (Graph.build p.spelledOut).forLoops =
    (Graph.build p).forLoops.map (ForLoop.renumbered p.spelledId) :=
  congrArg LoopMatching.forLoops p.matchedLoops_spelledOut

/-- The edges of the loops are the same under the new numbers. -/
theorem loopEdges_spelledOut (p : Program) :
    loopEdges p.spelledOut.placed p.spelledOut.matchedLoops =
      (loopEdges p.placed p.matchedLoops).map (Edge.renumbered p.spelledId) := by
  have next {id : NodeId} {holds : Command → Prop}
      (h : CommandAt (p.placed.map fun q => (q.id, q.statement)) id holds) :
      (Graph.build p.spelledOut).next (p.spelledId id) = p.spelledId ((Graph.build p).next id) ∧
        ((Graph.build p.spelledOut).node? (p.spelledId id)).bind Node.command? =
          ((Graph.build p).node? id).bind Node.command? := by
    obtain ⟨q, hq, rfl, -⟩ := commandAt_placed_iff.1 h
    exact next_spelledId hq
  have joins := LoopMatching.joins_ofStatements (p.placed.map fun q => (q.id, q.statement))
  rw [loopEdges, loopEdges, matchedLoops_spelledOut]
  simp only [(find?_placed_eq _ _).1, (find?_placed_eq _ _).2, LoopMatching.renumbered,
    List.flatMap_map, List.map_append, List.map_flatMap]
  congr 1
  · refine List.flatMap_congr fun l hl => ?_
    obtain ⟨hfor, hnext⟩ := joins.forLoops l hl
    simp only [ForLoop.renumbered, (next hfor).1, (next hfor).2, (next hnext).1, List.map_cons,
      Edge.renumbered]
    split <;> rfl
  · refine List.flatMap_congr fun l hl => ?_
    obtain ⟨-, hwend⟩ := joins.whileLoops l hl
    simp only [WhileLoop.renumbered, (next hwend).1, List.map_cons, Edge.renumbered, List.map_nil]

/-! ## Edges of the program -/

theorem spelledId_first (h : p.statements ≠ []) : p.spelledId 2 = 2 := by
  obtain ⟨s, rest, hs⟩ := List.exists_cons_of_ne_nil h
  have hmem : s.pair 2 2 (if rest.isEmpty then Graph.exit else 2 + s.nodeCount)
      (if rest.isEmpty then Graph.exit else 2 + s.spelledOut.nodeCount) 0 ∈ p.pairs := by
    rw [pairs, hs]
    exact List.mem_append_left _ (s.pair_mem_pairs ..)
  exact (p.numbers_pairs _ _ hmem).symm

/-- The edge from the entry leads to what stands for the first statement. -/
theorem entryEdge_spelledOut (p : Program) :
    (⟨Graph.entry, if p.spelledOut.statements.isEmpty then Graph.exit else 2, .normal⟩ : Edge) =
      Edge.renumbered p.spelledId
        ⟨Graph.entry, if p.statements.isEmpty then Graph.exit else 2, .normal⟩ := by
  rw [statements_spelledOut, isEmpty_spelledOutList]
  by_cases h : p.statements = []
  · rw [h]
    rfl
  · rw [if_neg (mt List.isEmpty_iff.1 h), Edge.renumbered, spelledId_first h]
    rfl

theorem ownEdges_of_goto {ctx : EdgeContext} {line : Nat}
    (h : q.statement.command? = some (.goto line)) :
    q.ownEdges ctx = [⟨q.id, ctx.entryOf line, .jump⟩] := by
  obtain ⟨⟨place, body⟩ | _, id, depth, next⟩ := q
  · obtain rfl : body = .goto line := Option.some.inj h
    rfl
  · cases h

/-- From a `GOTO` that is spelled out control goes to what stands for the statement on its line. -/
theorem jump_mem_edges {n : NodeId} {line : Nat} (h : JumpIn p.pairs n line) :
    ⟨n, p.spelledId (p.edgeContext.entryOf line), .jump⟩ ∈ p.spelledOut.edges := by
  obtain ⟨q', h, rfl, hc⟩ := h
  have hq' : q' ∈ p.spelledOut.placed := p.map_snd_pairs ▸ List.mem_map_of_mem (f := Prod.snd) h
  refine mem_edges_of_mem_ownEdges hq' ?_
  rw [ownEdges_of_goto hc, entryOf_spelledOut]
  exact List.mem_singleton_self _

/-- For every edge of the program there is one of the program as spelled out. -/
theorem exists_spelledAs (he : e ∈ p.edges) : ∃ e' ∈ p.spelledOut.edges, e.SpelledAs p e' := by
  rw [edges, List.mem_cons, List.mem_append, List.mem_append] at he
  rcases he with rfl | (he | he) | he
  · refine ⟨_, ?_, p.spelledAs_renumbered _⟩
    rw [← entryEdge_spelledOut]
    exact List.mem_cons_self
  · obtain ⟨q, hq, he⟩ := List.mem_flatMap.1 ((mem_edgesOfList_iff _ _ _ 0 _).1 he)
    obtain ⟨q', hq', h⟩ := exists_spells hq
    obtain ⟨e', he', hspelled⟩ := (exists_mem_of_forall₂ (forall₂_ownEdges h)).1 e he
    exact ⟨e', mem_edges_of_mem_ownEdges hq' he', hspelled⟩
  · refine ⟨_, mem_edges_of_mem_loopEdges ?_, p.spelledAs_renumbered e⟩
    rw [loopEdges_spelledOut]
    exact List.mem_map_of_mem he
  · exact ⟨_, mem_edges_of_mem_backEdges
      (p.renumbers_spelledOut.mem_backEdges_iff.2 ⟨e, he, rfl⟩), p.spelledAs_renumbered e⟩

/-- An edge of the program as spelled out stands for one of the program, or it is that of a `GOTO`
that is spelled out. -/
theorem spelledAs_or_jump (he' : e' ∈ p.spelledOut.edges) :
    (∃ e ∈ p.edges, e.SpelledAs p e') ∨ ∃ line, JumpIn p.pairs e'.source line ∧
      e'.target = p.spelledId (p.edgeContext.entryOf line) ∧ e'.kind = .jump := by
  rw [edges, List.mem_cons, List.mem_append, List.mem_append, entryEdge_spelledOut,
    loopEdges_spelledOut, List.mem_map] at he'
  rcases he' with rfl | (he' | ⟨e, he, rfl⟩) | he'
  · exact .inl ⟨_, List.mem_cons_self, p.spelledAs_renumbered _⟩
  · obtain ⟨q', hq', he'⟩ := List.mem_flatMap.1 ((mem_edgesOfList_iff _ _ _ 0 _).1 he')
    rcases spells_or_jumpIn hq' with ⟨q, hq, h⟩ | ⟨line, hjump, hc, -⟩
    · obtain ⟨e, he, hspelled⟩ := (exists_mem_of_forall₂ (forall₂_ownEdges h)).2 e' he'
      exact .inl ⟨e, mem_edges_of_mem_ownEdges hq he, hspelled⟩
    · rw [ownEdges_of_goto hc, List.mem_singleton] at he'
      subst he'
      exact .inr ⟨line, hjump, p.entryOf_spelledOut line, rfl⟩
  · exact .inl ⟨e, mem_edges_of_mem_loopEdges he, p.spelledAs_renumbered e⟩
  · obtain ⟨e, he, rfl⟩ := p.renumbers_spelledOut.mem_backEdges_iff.1 he'
    exact .inl ⟨e, mem_edges_of_mem_backEdges he, p.spelledAs_renumbered e⟩

end Program
end LineBasic
