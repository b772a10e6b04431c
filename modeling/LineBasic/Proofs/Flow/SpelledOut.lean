import LineBasic.Proofs.Flow.DefiniteAssignment
import LineBasic.Proofs.Flow.Expansion
import LineBasic.Proofs.Flow.Reachable
import LineBasic.Proofs.Graph.SpelledEdges

/-!
# Programs with arms spelled out

The graph of a program as spelled out is the graph of the program, drawn out by the `GOTO` of each
arm that is a line number (`Program.expansion_spelledOut`). So the same statements are reachable,
and the same reads before assignment are found.
-/

namespace LineBasic

/-! ## Reachable nodes of an expansion -/

namespace Graph

theorem Glides.isReachable {p : Program} {inner : NodeId → Prop} {id target : NodeId}
    (h : (build p).Glides inner id target) (hid : (build p).isReachable id = true) :
    (build p).isReachable target = true := by
  have hclosed := (closed_reachable p).2
  induction h with
  | edge ht _ => exact hclosed _ _ _ hid ht
  | through ht _ _ _ ih => exact ih (hclosed _ _ _ hid ht)

/-- A head is reachable if and only if its node is. -/
theorem Expansion.isReachable_head {p p' : Program} {head : NodeId → NodeId}
    {inner : NodeId → NodeId → Prop} (h : (build p).Expansion (build p') head inner)
    (id : NodeId) : (build p').isReachable (head id) = (build p).isReachable id := by
  rw [Bool.eq_iff_iff]
  constructor
  · intro hhead
    -- what is reached is in the chain of a reachable node
    have chain : ∃ id', (build p).isReachable id' = true ∧
        (head id = head id' ∨ inner id' (head id)) := by
      refine isReachable_induction (P := fun n => ∃ id', (build p).isReachable id' = true ∧
        (n = head id' ∨ inner id' n)) ?_ ?_ hhead
      · exact ⟨entry, (closed_reachable p).1, .inl h.entry.symm⟩
      · rintro n target kind ⟨id', hid', hn⟩ ht
        rcases h.origin ht hn with ⟨hinner, -⟩ | ⟨t, kind', ht', rfl, -⟩
        · exact ⟨id', hid', .inr hinner⟩
        · exact ⟨t, (closed_reachable p).2 _ _ _ hid' ht', .inl rfl⟩
    obtain ⟨id', hid', heq | hinner⟩ := chain
    · exact h.injective heq ▸ hid'
    · exact absurd hinner h.head_not_inner
  · refine isReachable_induction (P := fun id => (build p').isReachable (head id) = true) ?_ ?_
    · rw [h.entry]
      exact (closed_reachable p').1
    · intro id target kind hid ht
      by_cases hk : kind = .call
      · exact (closed_reachable p').2 _ _ _ hid (h.direct ht (.inl hk))
      · exact (h.along ht hk).isReachable hid

end Graph

/-! ## The graph is drawn out -/

namespace Program

variable {p : Program} {q q' : Placed}

/-- The number `n` is that of a `GOTO` that is spelled out and leads where an arm of the statement
with number `id` leads. -/
def ArmJump (p : Program) (id n : NodeId) : Prop :=
  ∃ line kind, JumpIn p.pairs n line ∧ (kind = .thenArm ∨ kind = .elseArm) ∧
    ⟨id, p.edgeContext.entryOf line, kind⟩ ∈ p.edges

/-- There is one `GOTO` at a number. -/
theorem command?_of_jumpIn {n : NodeId} {line : Nat} (h : JumpIn p.pairs n line)
    (hq' : q' ∈ p.spelledOut.placed) (hid : q'.id = n) :
    q'.statement.command? = some (.goto line) := by
  obtain ⟨q'', h, rfl, hc⟩ := h
  have hq'' : q'' ∈ p.spelledOut.placed := p.map_snd_pairs ▸ List.mem_map_of_mem (f := Prod.snd) h
  rw [eq_of_id_eq hq' hq'' hid]
  exact hc

theorem jumpIn_unique {n : NodeId} {line line' : Nat} (h : JumpIn p.pairs n line)
    (h' : JumpIn p.pairs n line') : line = line' := by
  have hn := h'
  obtain ⟨q', hmem, hid, hc⟩ := hn
  have hq' : q' ∈ p.spelledOut.placed := p.map_snd_pairs ▸ List.mem_map_of_mem (f := Prod.snd) hmem
  have hc' := command?_of_jumpIn h hq' hid
  rw [hc] at hc'
  cases hc'
  rfl

theorem returnAt_spelledId_iff {id : NodeId} :
    (Graph.build p.spelledOut).ReturnAt (p.spelledId id) ↔ (Graph.build p).ReturnAt id := by
  rw [Graph.returnAt_build_iff, Graph.returnAt_build_iff]
  constructor
  · rintro ⟨q', hq', hid, hr⟩
    obtain ⟨q, hq, h⟩ := p.renumbers_spelledOut.exists_origin hq' fun line => hr ▸ nofun
    exact ⟨q, hq, p.strictMono_spelledId.injective (h.id_eq.symm.trans hid),
      h.command.symm.trans hr⟩
  · rintro ⟨q, hq, rfl, hr⟩
    obtain ⟨q', hq', h⟩ := exists_spells hq
    exact ⟨q', hq', h.id_eq, h.command.trans hr⟩

/-- The graph of the program as spelled out does what the graph of the program does. -/
theorem expansion_spelledOut (p : Program) :
    (Graph.build p).Expansion (Graph.build p.spelledOut) p.spelledId p.ArmJump where
  entry := p.spelledId_entry
  returnAt := returnAt_spelledId_iff
  not_returnAt_inner {id n} := by
    rintro ⟨line, _, hjump, -⟩ hr
    obtain ⟨q', hq', hid, hr⟩ := Graph.returnAt_build_iff.1 hr
    rw [Placed.Returns, command?_of_jumpIn hjump hq' hid] at hr
    cases hr
  next_of_call {site t} ht := by
    obtain ⟨q, hq, rfl, -⟩ :=
      (soundEdge_of_mem_edges (Graph.mem_successors_build_iff.1 ht)).call rfl
    exact (next_spelledId hq).1
  direct {id t kind} ht hdirect := by
    obtain ⟨⟨source, target, kind'⟩, he', hsource, hkind, htarget⟩ :=
      exists_spelledAs (Graph.mem_successors_build_iff.1 ht)
    obtain rfl : source = p.spelledId id := hsource
    obtain rfl : kind' = kind := hkind
    rcases htarget with htarget | ⟨harm, -⟩
    · obtain rfl : target = p.spelledId t := htarget
      exact Graph.mem_successors_build_iff.2 he'
    · -- an edge into an arm is no call, and it does not come from a `RETURN`
      rcases hdirect with rfl | hr
      · rcases harm with h | h <;> cases h
      · have hback : kind' = .back := (Graph.wellFormed_build p).kind_of_return hr ht
        subst hback
        rcases harm with h | h <;> cases h
  along {id t kind} ht hk := by
    have he := Graph.mem_successors_build_iff.1 ht
    obtain ⟨⟨source, target, kind'⟩, he', hsource, hkind, htarget⟩ := exists_spelledAs he
    obtain rfl : source = p.spelledId id := hsource
    obtain rfl : kind' = kind := hkind
    rcases htarget with htarget | ⟨harm, line, hjump, hline⟩
    · obtain rfl : target = p.spelledId t := htarget
      exact .edge (Graph.mem_successors_build_iff.2 he') hk
    · obtain rfl : t = p.edgeContext.entryOf line := hline
      exact .through (Graph.mem_successors_build_iff.2 he') hk ⟨id, line, kind', hjump, harm, he⟩
        (.edge (Graph.mem_successors_build_iff.2 (jump_mem_edges hjump)) (by decide))
  injective := p.strictMono_spelledId.injective
  head_not_inner {id id'} := by
    rintro ⟨line, _, hjump, -⟩
    exact spelledId_ne_of_jumpIn hjump id' rfl
  not_returnAt_drawn {id n} := by
    rintro ⟨line, kind, -, hkind, he⟩ hr
    have hback := (Graph.wellFormed_build p).kind_of_return hr (Graph.mem_successors_build_iff.2 he)
    rcases hkind with rfl | rfl <;> cases hback
  origin {id n t kind} ht hn := by
    rcases spelledAs_or_jump (Graph.mem_successors_build_iff.1 ht) with
      ⟨⟨source, target, kind'⟩, he, hsource, hkind, htarget⟩ | ⟨line, hjump, htarget, hkind⟩
    · obtain rfl : n = p.spelledId source := hsource
      obtain rfl : kind = kind' := hkind
      obtain rfl : id = source := by
        rcases hn with heq | ⟨_, _, hjump, -⟩
        · exact p.strictMono_spelledId.injective heq.symm
        · exact absurd rfl (spelledId_ne_of_jumpIn hjump source)
      rcases htarget with htarget | ⟨harm, line, hjump, hline⟩
      · exact .inr ⟨target, kind, Graph.mem_successors_build_iff.2 he, htarget, Iff.rfl,
          fun _ => rfl⟩
      · obtain rfl : target = p.edgeContext.entryOf line := hline
        refine .inl ⟨⟨line, kind, hjump, harm, he⟩, ?_⟩
        rcases harm with rfl | rfl <;> rintro ⟨⟩
    · obtain rfl : kind = .jump := hkind
      rcases hn with rfl | ⟨line', kind', hjump', harm, he⟩
      · exact absurd rfl (spelledId_ne_of_jumpIn hjump id)
      · obtain rfl : line = line' := jumpIn_unique hjump hjump'
        refine .inr ⟨_, kind', Graph.mem_successors_build_iff.2 he, htarget, ?_, by rintro ⟨⟩⟩
        rcases harm with rfl | rfl <;> simp

/-! ## Reads and writes -/

/-- The counters of the loops that a statement closes stay the same. -/
theorem loopsClosedBy_spelledId (id : NodeId) :
    ((Graph.build p.spelledOut).loopsClosedBy (p.spelledId id)).map ForLoop.counter =
      ((Graph.build p).loopsClosedBy id).map ForLoop.counter := by
  have hnext : (fun l : ForLoop => l.nextNode == p.spelledId id) ∘ ForLoop.renumbered p.spelledId =
      fun l => l.nextNode == id := funext fun l => p.strictMono_spelledId.injective.beq_eq
  rw [Graph.loopsClosedBy, Graph.loopsClosedBy, forLoops_spelledOut, List.filter_map, hnext,
    List.map_map]
  rfl

/-- What stands for a statement reads and writes what the statement does. -/
theorem effects_of_spells (hq : q ∈ p.placed) (hq' : q' ∈ p.spelledOut.placed)
    (h : q'.Spells p.pairs p.spelledId q) (t : SymbolTable) :
    ((Graph.build p.spelledOut).effects t)[q'.id]? = ((Graph.build p).effects t)[q.id]? := by
  rw [Graph.getElem?_effects_of_mem_placed hq', Graph.getElem?_effects_of_mem_placed hq,
    h.statement, h.id_eq, Statement.effects_congr _ (loopsClosedBy_spelledId q.id)]
  rcases q.statement with _ | ⟨_, _, _, _ | _⟩ <;> rfl

theorem effects_of_goto (hq' : q' ∈ p.spelledOut.placed) {line : Nat}
    (hc : q'.statement.command? = some (.goto line)) (t : SymbolTable) :
    ((Graph.build p.spelledOut).effects t)[q'.id]? = some .none := by
  rw [Graph.getElem?_effects_of_mem_placed hq']
  rcases hs : q'.statement with ⟨place, body⟩ | _ <;> rw [hs] at hc
  · obtain rfl : body = .goto line := Option.some.inj hc
    rfl
  · cases hc

theorem writes_spelledOut (p : Program) (t : SymbolTable) (name : String) :
    Graph.Embeds.Writes p.spelledId p.ArmJump ((Graph.build p).effects t)
      ((Graph.build p.spelledOut).effects t) name where
  head {id} := by
    constructor
    · intro h
      obtain ⟨q', hq', hid, -⟩ := Graph.exists_command_of_writesAt h
      rcases spells_or_jumpIn hq' with ⟨q, hq, hspells⟩ | ⟨line, hjump, -⟩
      · obtain rfl : q.id = id := p.strictMono_spelledId.injective (hspells.id_eq.symm.trans hid)
        rwa [← hid, WritesAt, effects_of_spells hq hq' hspells] at h
      · exact absurd hid (spelledId_ne_of_jumpIn hjump id)
    · intro h
      obtain ⟨q, hq, rfl, -⟩ := Graph.exists_command_of_writesAt h
      obtain ⟨q', hq', hspells⟩ := exists_spells hq
      rwa [← hspells.id_eq, WritesAt, effects_of_spells hq hq' hspells]
  inner {id n} := by
    rintro ⟨line, _, hjump, -⟩ h
    obtain ⟨q', hq', rfl, -⟩ := Graph.exists_command_of_writesAt h
    rw [WritesAt, effects_of_goto hq' (command?_of_jumpIn hjump hq' rfl)] at h
    obtain ⟨fx, hfx, hname⟩ := h
    cases hfx
    cases hname

end Program

/-! ## Reports -/

namespace UninitializedUse

variable {effects effects' : Array Effects} {solution solution' : Solution AssignedSet}
  {n n' : Node}

theorem atNode_of_forall_mem {assigned : AssignedSet} (h : ∀ name, name ∈ assigned) (line : Nat)
    (uses : List VarUse) : atNode line assigned uses = [] := by
  have hopen : uses.filter (fun u => !assigned.contains u.name) = [] :=
    List.filter_eq_nil_iff.2 fun u _ => by simp [Std.ExtTreeSet.contains_iff_mem.2 (h u.name)]
  rw [atNode, hopen]
  rfl

theorem atNode_congr {assigned assigned' : AssignedSet}
    (h : ∀ name, name ∈ assigned' ↔ name ∈ assigned) (line : Nat) (uses : List VarUse) :
    atNode line assigned' uses = atNode line assigned uses := by
  have hopen : uses.filter (fun u => !assigned'.contains u.name) =
      uses.filter fun u => !assigned.contains u.name := by
    refine List.filter_congr fun u _ => congrArg _ (Bool.eq_iff_iff.2 ?_)
    rw [Std.ExtTreeSet.contains_iff_mem, Std.ExtTreeSet.contains_iff_mem, h]
  rw [atNode, atNode, hopen]

/-- The reports depend on what is read, and on which scalars may be unassigned there. -/
theorem ofNode_congr (hline : n'.line = n.line) (heffects : effects'[n'.id]? = effects[n.id]?)
    (hopen : ∀ name, (∃ fact, solution'.before[n'.id]? = some fact ∧ name ∉ fact) ↔
      ∃ fact, solution.before[n.id]? = some fact ∧ name ∉ fact) :
    ofNode effects' solution' n' = ofNode effects solution n := by
  rw [ofNode, ofNode, heffects, hline]
  generalize solution'.before[n'.id]? = before' at hopen
  generalize solution.before[n.id]? = before at hopen
  rcases effects[n.id]? with _ | fx
  · cases before' <;> cases before <;> rfl
  · rcases before' with _ | fact' <;> rcases before with _ | fact
    · rfl
    · exact (atNode_of_forall_mem (by simpa using hopen) _ _).symm
    · exact atNode_of_forall_mem (by simpa using hopen) _ _
    · refine atNode_congr (fun name => not_iff_not.1 ?_) _ _
      simpa using hopen name

/-- Nothing is reported where nothing is read. -/
theorem ofNode_eq_nil {fx : Effects} (h : effects[n.id]? = some fx) (huses : fx.uses = []) :
    ofNode effects solution n = [] := by
  rw [ofNode, h]
  rcases solution.before[n.id]? with _ | fact
  · rfl
  · show atNode _ _ fx.uses = []
    rw [huses]
    rfl

/-- The reports of a program are those of its statements. -/
theorem findUninitialized_eq (p : Program) (t : SymbolTable) :
    findUninitialized (Graph.build p) ((Graph.build p).effects t) =
      p.placed.flatMap fun q => ofNode ((Graph.build p).effects t)
        ((definiteAssignment ((Graph.build p).effects t)).solve (Graph.build p))
        (q.node p.edges) := by
  have ends {n : Node} (hn : n ∈ (Graph.build p).nodes) (hs : n.statement = none)
      (solution : Solution AssignedSet) :
      ofNode ((Graph.build p).effects t) solution n = [] := by
    refine ofNode_eq_nil (?_ : _ = some Effects.none) rfl
    rw [Graph.getElem?_effects, (Graph.wellFormed_build p).node?_id hn, Option.map_some, hs]
    rfl
  have hmem : ∀ n ∈ (Graph.build p).nodes.toList, n ∈ (Graph.build p).nodes := fun n =>
    Array.mem_toList_iff.1
  rw [findUninitialized, ofSolution]
  generalize (definiteAssignment ((Graph.build p).effects t)).solve (Graph.build p) = solution
  rw [Graph.nodes_build] at hmem ⊢
  rw [List.forall_mem_append, List.forall_mem_cons, List.forall_mem_singleton] at hmem
  rw [List.flatMap_append, List.flatMap_cons, List.flatMap_singleton, ends hmem.1.1 rfl,
    ends hmem.1.2 rfl, List.flatMap_map]
  rfl

end UninitializedUse

namespace Program

variable {p : Program} {q q' : Placed} {t : SymbolTable}

theorem ofNode_of_spells (hq : q ∈ p.placed) (hq' : q' ∈ p.spelledOut.placed)
    (h : q'.Spells p.pairs p.spelledId q) :
    UninitializedUse.ofNode ((Graph.build p.spelledOut).effects t)
        ((definiteAssignment ((Graph.build p.spelledOut).effects t)).solve
          (Graph.build p.spelledOut)) (q'.node p.spelledOut.edges) =
      UninitializedUse.ofNode ((Graph.build p).effects t)
        ((definiteAssignment ((Graph.build p).effects t)).solve (Graph.build p))
        (q.node p.edges) := by
  refine UninitializedUse.ofNode_congr ?_ (effects_of_spells hq hq' h t) fun name => ?_
  · show q'.statement.line = q.statement.line
    rw [h.statement, Statement.line_spelledOut]
  · rw [not_mem_before_iff (Graph.wellFormed_build _), not_mem_before_iff (Graph.wellFormed_build _)]
    show (∃ calls past, (Graph.build p.spelledOut).ContextPath ((q'.id, calls) :: past) ∧ _) ↔ _
    rw [h.id_eq]
    exact p.expansion_spelledOut.exists_silent_path_head_iff (writes_spelledOut p t name)

theorem ofNode_of_goto (hq' : q' ∈ p.spelledOut.placed) {line : Nat}
    (hc : q'.statement.command? = some (.goto line)) {solution : Solution AssignedSet} :
    UninitializedUse.ofNode ((Graph.build p.spelledOut).effects t) solution
      (q'.node p.spelledOut.edges) = [] :=
  UninitializedUse.ofNode_eq_nil (effects_of_goto hq' hc t) rfl

/-- The same reads before assignment are found with arms spelled out. -/
theorem findUninitialized_spelledOut (p : Program) (t : SymbolTable) :
    findUninitialized (Graph.build p.spelledOut) ((Graph.build p.spelledOut).effects t) =
      findUninitialized (Graph.build p) ((Graph.build p).effects t) := by
  rw [UninitializedUse.findUninitialized_eq, UninitializedUse.findUninitialized_eq,
    ← map_snd_pairs, ← filterMap_fst_pairs, List.filterMap_eq_flatMap_toList, List.flatMap_map,
    List.flatMap_assoc]
  refine List.flatMap_congr fun r hr => ?_
  rcases r with ⟨_ | q, q'⟩
  · obtain ⟨line, -, hc, -⟩ := exists_goto_of_mem_pairs hr
    exact ofNode_of_goto (p.map_snd_pairs ▸ List.mem_map_of_mem (f := Prod.snd) hr) hc
  · obtain ⟨hq, hq'⟩ := mem_placed_of_mem_pairs hr
    show UninitializedUse.ofNode _ _ _ = [q].flatMap _
    rw [List.flatMap_singleton]
    exact ofNode_of_spells hq hq' (spells_of_mem_pairs hr)

end Program
end LineBasic
