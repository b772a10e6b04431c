import LineBasic.Loop.Summary
import LineBasic.Proofs.Expr.Subterms
import LineBasic.Proofs.Flow.Effects
import LineBasic.Proofs.Graph.Arms
import LineBasic.Symbol.Build

/-!
# Invariants that are hoisted

An invariant that is reported as hoistable is computed somewhere in the body of its loop, at the
depth of the `FOR`, and nothing from the `FOR` to the `NEXT` writes what it reads or calls a
subroutine. If it stands in the same arms as the `FOR`, every round that stays in the body and does
not jump over it computes it (`hoistable_invariants`). A round that jumps over it does not, and a
statement that a jump out of the body leads to may write what it reads (`hoistable_unsafe`).
-/

namespace LineBasic

/-! ## Largest subexpressions -/

namespace Expr

variable {ν : Type} {holds : Expr ν → Bool} {part : Expr ν}

mutual

theorem holds_of_mem_largest :
    ∀ {e : Expr ν}, part ∈ e.largest holds → holds part = true ∧ part ∈ e.subterms
  | e, h => by
    rw [largest.eq_def] at h
    split at h
    next he =>
      obtain rfl := List.mem_singleton.1 h
      exact ⟨he, self_mem_subterms part⟩
    next =>
      cases e with
      | number | string | scalar => cases h
      | element name subscripts | intrinsic name subscripts | call name subscripts =>
        obtain ⟨hpart, hmem⟩ := holds_of_mem_largestOfList h
        exact ⟨hpart, List.mem_cons_of_mem _ hmem⟩
      | unary op operand =>
        obtain ⟨hpart, hmem⟩ := holds_of_mem_largest h
        exact ⟨hpart, List.mem_cons_of_mem _ hmem⟩
      | binary op left right =>
        rcases List.mem_append.1 h with h | h <;> obtain ⟨hpart, hmem⟩ := holds_of_mem_largest h
        · exact ⟨hpart, List.mem_cons_of_mem _ (List.mem_append_left _ hmem)⟩
        · exact ⟨hpart, List.mem_cons_of_mem _ (List.mem_append_right _ hmem)⟩

theorem holds_of_mem_largestOfList :
    ∀ {es : List (Expr ν)}, part ∈ largestOfList holds es →
      holds part = true ∧ part ∈ subtermsOfList es
  | [], h => by cases h
  | e :: rest, h => by
    rcases List.mem_append.1 h with h | h
    · obtain ⟨hpart, hmem⟩ := holds_of_mem_largest h
      exact ⟨hpart, List.mem_append_left _ hmem⟩
    · obtain ⟨hpart, hmem⟩ := holds_of_mem_largestOfList h
      exact ⟨hpart, List.mem_append_right _ hmem⟩

end

end Expr

/-- The node computes the expression, perhaps as a part of another one. -/
def ComputesAt (effects : Array Effects) (id : NodeId) (e : Expr Float) : Prop :=
  ∃ fx, effects[id]? = some fx ∧ ∃ root ∈ fx.roots, e ∈ root.subterms

/-! ## What is reported -/

namespace LoopContext

variable {ctx : LoopContext} {l : ForLoop}

theorem mem_body_iff {n : Node} :
    n ∈ ctx.body l ↔ n ∈ ctx.graph.nodes ∧ l.contains n.id = true ∧ n.statement.isSome = true := by
  simp [body]

/-- What the statements of the body write. -/
def writtenIn (ctx : LoopContext) (l : ForLoop) : List String :=
  (ctx.body l).flatMap fun n => (ctx.effectsAt n.id).writtenTags

theorem exists_node_of_mem_invariantOccurrences {o : Occurrence}
    (ho : o ∈ ctx.invariantOccurrences l) :
    ∃ n ∈ ctx.body l, ComputesAt ctx.effects n.id o.expr ∧
      isInvariant (ctx.writtenIn l) o.expr = true ∧
      o.isUnconditional = (n.depth == ((ctx.graph.node? l.forNode).map Node.depth).getD 0) := by
  obtain ⟨n, hn, ho⟩ := List.mem_flatMap.1 ho
  obtain ⟨e, he, rfl⟩ := List.mem_map.1 ho
  obtain ⟨root, hroot, he⟩ := List.mem_flatMap.1 (List.mem_reverse.1 he)
  obtain ⟨hinvariant, hmem⟩ := Expr.holds_of_mem_largest he
  refine ⟨n, hn, ?_, hinvariant, rfl⟩
  rw [effectsAt] at hroot
  rcases hfx : ctx.effects[n.id]? with _ | fx
  · rw [hfx] at hroot
    cases hroot
  · rw [hfx] at hroot
    exact ⟨fx, hfx, root, hroot, hmem⟩

theorem exists_occurrence_of_mem_invariants {inv : LoopInvariant} {calls : Bool}
    (h : inv ∈ ctx.invariants l calls) :
    ∃ o ∈ ctx.invariantOccurrences l, inv.expression = o.expr.canonical ∧
      (inv.isHoistable = true → calls = false ∧ o.isUnconditional = true) := by
  obtain ⟨key, -, h⟩ := List.mem_filterMap.1 h
  split at h
  next => cases h
  next first rest hlist =>
    obtain rfl := Option.some.inj h
    have hmem : first ∈ first :: rest := List.mem_cons_self
    rw [← hlist] at hmem
    obtain ⟨entry, hentry, rfl⟩ := List.mem_map.1 hmem
    obtain ⟨o, ho, rfl⟩ := List.mem_map.1 (List.mem_of_mem_filter hentry)
    refine ⟨o, ho, rfl, fun hoistable => ?_⟩
    rw [Bool.and_eq_true, Bool.not_eq_true', List.all_cons, Bool.and_eq_true] at hoistable
    exact ⟨hoistable.1, hoistable.2.1⟩

theorem exists_loop_of_mem_summaries {info : LoopSummary} (h : info ∈ ctx.summaries) :
    ∃ l ∈ ctx.graph.forLoops, ∃ start stop step, info = ctx.summary l start stop step := by
  obtain ⟨l, hl, h⟩ := List.mem_filterMap.1 h
  split at h
  next counter start stop step hc =>
    split at h
    · exact ⟨l, hl, start, stop, step, (Option.some.inj h).symm⟩
    · cases h
  next => cases h

end LoopContext

/-! ## What a loop leaves alone -/

section Unchanged

variable {p : Program} {t : SymbolTable} {ctx : LoopContext} {l : ForLoop}

/-- What a node within the loop writes is written by a statement of the body. -/
theorem LoopContext.exists_mem_body (hctx : ctx.graph = Graph.build p)
    (heffects : ctx.effects = (Graph.build p).effects t) {id : NodeId} (hid : l.contains id = true)
    {tag : String} (hwrites : WritesTagAt ctx.effects id tag) :
    ∃ n ∈ ctx.body l, n.id = id ∧ tag ∈ (ctx.effectsAt n.id).writtenTags := by
  obtain ⟨fx, hfx, htag⟩ := hwrites
  have hfx' := hfx
  rw [heffects, Graph.getElem?_effects] at hfx'
  obtain ⟨n, hn, hs⟩ := Option.map_eq_some_iff.1 hfx'
  obtain rfl : n.id = id := (Graph.wellFormed_build p).id_eq hn
  have statement : n.statement.isSome = true := by
    rw [Option.isSome_iff_ne_none]
    intro hnone
    rw [hnone] at hs
    subst hs
    cases htag
  have body : n ∈ ctx.body l :=
    mem_body_iff.2 ⟨hctx ▸ Array.mem_of_getElem? hn, hid, statement⟩
  refine ⟨n, body, rfl, ?_⟩
  rwa [effectsAt, hfx]

/-- What a statement of the body writes is among what the body writes. -/
theorem LoopContext.mem_writtenIn (hctx : ctx.graph = Graph.build p)
    (heffects : ctx.effects = (Graph.build p).effects t) {id : NodeId} (hid : l.contains id = true)
    {tag : String} (hwrites : WritesTagAt ctx.effects id tag) : tag ∈ ctx.writtenIn l := by
  obtain ⟨n, hn, -, htag⟩ := exists_mem_body hctx heffects hid hwrites
  exact List.mem_flatMap.2 ⟨n, hn, htag⟩

/-- The `NEXT` of a loop writes its counter. -/
theorem writesTagAt_nextNode (t : SymbolTable) (hl : l ∈ (Graph.build p).forLoops) :
    WritesTagAt ((Graph.build p).effects t) l.nextNode l.counter := by
  obtain ⟨q, hq, hid, c, hc, counters, rfl, hcounter⟩ := Program.exists_next_of_mem_forLoops hl
  have hn := Array.mem_of_getElem? (Graph.node?_build_of_mem_placed hq)
  have hfx := (Graph.wellFormed_build p).getElem?_effects_of_command hn hc t
  rw [← hid]
  refine ⟨_, hfx, List.mem_append_left _ ?_⟩
  have closed : l ∈ (Graph.build p).loopsClosedBy q.id :=
    List.mem_filter.2 ⟨hl, by simp [hid]⟩
  rcases counters with _ | ⟨name, rest⟩
  · exact List.mem_map.2 ⟨l, closed, rfl⟩
  · exact hcounter.resolve_left (List.cons_ne_nil _ _)

/-- The `FOR` of a loop writes nothing but its counter. -/
theorem eq_counter_of_writesTagAt_forNode (hl : l ∈ (Graph.build p).forLoops) {tag : String}
    (h : WritesTagAt ((Graph.build p).effects t) l.forNode tag) : tag = l.counter := by
  obtain ⟨q, hq, hid, c, hc, name, start, stop, step, rfl, hcounter⟩ :=
    Program.exists_for_of_mem_forLoops hl
  have hn := Array.mem_of_getElem? (Graph.node?_build_of_mem_placed hq)
  have hfx := (Graph.wellFormed_build p).getElem?_effects_of_command hn hc t
  obtain ⟨fx, hfx', htag⟩ := h
  rw [← hid] at hfx'
  obtain rfl := Option.some.inj (hfx.symm.trans hfx')
  simpa [Command.effects, Effects.writtenTags, hcounter] using htag

/-- Nothing from the `FOR` to the `NEXT` writes what an invariant reads. -/
theorem LoopContext.not_writesTagAt_of_isInvariant (hctx : ctx.graph = Graph.build p)
    (heffects : ctx.effects = (Graph.build p).effects t) (hl : l ∈ (Graph.build p).forLoops)
    {id : NodeId} (hinside : l.contains id = true) {e : Expr Float}
    (hinvariant : isInvariant (ctx.writtenIn l) e = true) {other : NodeId}
    (hfor : l.forNode ≤ other) (hnext : other ≤ l.nextNode) :
    ∀ tag ∈ e.readTags, ¬ WritesTagAt ((Graph.build p).effects t) other tag := by
  intro tag htag hwrites
  have unwritten : tag ∉ ctx.writtenIn l := by
    unfold isInvariant at hinvariant
    rw [Bool.and_eq_true, Bool.not_eq_true', List.any_eq_false] at hinvariant
    simpa using hinvariant.2 tag htag
  rcases Nat.eq_or_lt_of_le hfor with rfl | hlt
  · -- the counter is written in the body too, by the `NEXT`
    obtain rfl := eq_counter_of_writesTagAt_forNode hl hwrites
    have inside : l.contains l.nextNode = true := by
      simp only [ForLoop.contains, Bool.and_eq_true, decide_eq_true_eq] at hinside ⊢
      exact ⟨Nat.lt_of_lt_of_le hinside.1 hinside.2, Nat.le_refl _⟩
    exact unwritten (mem_writtenIn hctx heffects inside (heffects ▸ writesTagAt_nextNode t hl))
  · have inside : l.contains other = true := by
      rw [ForLoop.contains, Bool.and_eq_true, decide_eq_true_eq, decide_eq_true_eq]
      exact ⟨hlt, hnext⟩
    exact unwritten (mem_writtenIn hctx heffects inside (heffects ▸ hwrites))

/-- If no statement of the body calls, control does not leave the body for a subroutine. -/
theorem LoopContext.not_mem_successors_of_any_eq_false (hctx : ctx.graph = Graph.build p)
    (hcalls : ((ctx.body l).any fun n => n.successors.any fun edge => edge.2 == .call) = false)
    {id target : NodeId} (hid : l.contains id = true) :
    (target, .call) ∉ (Graph.build p).successors id := by
  intro hcall
  have edge := Program.soundEdge_of_mem_edges (Graph.mem_successors_build_iff.1 hcall)
  obtain ⟨q, hq, rfl, -⟩ := edge.call rfl
  have hn := Graph.node?_build_of_mem_placed hq
  rw [Graph.successors, hn] at hcall
  have body : q.node p.edges ∈ ctx.body l :=
    mem_body_iff.2 ⟨hctx ▸ Array.mem_of_getElem? hn, hid, rfl⟩
  have none := List.any_eq_false.1 hcalls _ body
  exact none (List.any_eq_true.2 ⟨_, hcall, rfl⟩)

end Unchanged

/-! ## Rounds of a loop -/

/-- A step within the body that does not jump over the node. -/
structure RoundStep (p : Program) (l : ForLoop) (id : NodeId) (s t : Graph.StackState) : Prop where
  stackStep : (Graph.build p).StackStep s t
  inside : l.contains s.1 = true
  reaches : s.1 < id → id < t.1 → ¬ p.JumpsAhead s.1 t.1

section Rounds

variable {p : Program} {l : ForLoop} {id : NodeId}

/-- Control that stays in the body goes past no node of it without a jump, if every arm that holds
the node holds the `FOR`. -/
theorem le_of_inside (hl : l ∈ (Graph.build p).forLoops)
    (harms : ∀ a ∈ p.arms, a.Holds id → a.Holds l.forNode) {source target : NodeId}
    (hsource : source = l.forNode ∨ l.contains source = true) (hlt : source < id)
    (hjump : ¬ p.JumpsAhead source target) : target ≤ id := by
  obtain ⟨f, hf, hfid, -⟩ := Program.exists_for_of_mem_forLoops hl
  obtain ⟨n, hn, hnid, -⟩ := Program.exists_next_of_mem_forLoops hl
  have between : l.forNode ≤ source ∧ ∃ q ∈ p.placed, q.id = source := by
    rcases hsource with rfl | hinside
    · exact ⟨Nat.le_refl _, f, hf, hfid⟩
    · rw [ForLoop.contains, Bool.and_eq_true, decide_eq_true_eq, decide_eq_true_eq] at hinside
      have hpos : 2 ≤ l.forNode := hfid ▸ Program.two_le_id hf
      have hend : l.nextNode < p.nodeCount := hnid ▸ Program.id_lt_nodeCount hn
      have hle := Nat.le_of_lt hinside.1
      exact ⟨hle, p.exists_mem_placed (Nat.le_trans hpos hle)
        (Nat.lt_of_le_of_lt hinside.2 hend)⟩
  obtain ⟨hle, q, hq, rfl⟩ := between
  -- an arm that holds the `FOR` and the node holds what is between them
  refine Program.le_of_not_jumpsAhead hq hjump hlt fun a ha hid => ?_
  exact ⟨Nat.le_trans (harms a ha hid).1 hle, Nat.lt_trans hlt hid.2⟩

/-- Every round that stays in the body and does not jump over a node in the same arms meets it. -/
theorem exists_mem_round (hl : l ∈ (Graph.build p).forLoops) (hid : l.contains id = true)
    (harms : ∀ a ∈ p.arms, a.Holds id → a.Holds l.forNode) {stack stack' : List NodeId}
    {past : List Graph.StackState}
    (h : History (RoundStep p l id) ((Graph.build p).next l.forNode, stack)
      ((l.nextNode, stack') :: past)) :
    ∃ s ∈ (l.nextNode, stack') :: past, s.1 = id := by
  rw [ForLoop.contains, Bool.and_eq_true, decide_eq_true_eq, decide_eq_true_eq] at hid
  -- as long as the node is ahead, no step goes past it
  have ahead {round : List Graph.StackState}
      (h : History (RoundStep p l id) ((Graph.build p).next l.forNode, stack) round) :
      (∃ s ∈ round, s.1 = id) ∨ ∃ s ∈ round.head?, s.1 < id := by
    induction h with
    | start =>
      obtain ⟨f, hf, hfid, -⟩ := Program.exists_for_of_mem_forLoops hl
      have hnext : (Graph.build p).next l.forNode = f.next :=
        hfid ▸ Graph.next_build_of_mem_placed hf
      have hjump : ¬ p.JumpsAhead l.forNode f.next := fun h => (h.2 f hf hfid).1 rfl
      have hle : f.next ≤ id := le_of_inside hl harms (.inl rfl) hid.1 hjump
      rw [hnext]
      rcases Nat.eq_or_lt_of_le hle with heq | hlt
      · exact .inl ⟨_, List.mem_singleton_self _, heq⟩
      · exact .inr ⟨_, rfl, hlt⟩
    | @step s t past _ hst ih =>
      rcases ih with ⟨s, hs, hid⟩ | ⟨s, hs, hlt⟩
      · exact .inl ⟨s, List.mem_cons_of_mem _ hs, hid⟩
      · obtain rfl : _ = s := Option.some.inj hs
        have hle : t.1 ≤ id := by
          by_contra hpast
          rw [Nat.not_le] at hpast
          have hjump := hst.reaches hlt hpast
          exact Nat.not_lt.2 (le_of_inside hl harms (.inr hst.inside) hlt hjump) hpast
        rcases Nat.eq_or_lt_of_le hle with heq | hlt
        · exact .inl ⟨t, List.mem_cons_self, heq⟩
        · exact .inr ⟨t, rfl, hlt⟩
  rcases ahead h with hmet | ⟨s, hs, hlt⟩
  · exact hmet
  · obtain rfl : _ = s := Option.some.inj hs
    exact absurd hid.2 (Nat.not_le.2 hlt)

end Rounds

/-! ## Hoisting -/

/-- A node at depth zero is in no arm. -/
theorem Graph.not_holds_of_depth_eq_zero {p : Program} {n : Node} (hn : n ∈ (build p).nodes)
    (hdepth : n.depth = 0) {a : ArmSpan} (ha : a ∈ p.arms) : ¬ a.Holds n.id := by
  intro hid
  obtain ⟨f, hf, hfa⟩ := List.mem_flatMap.1 ha
  have hpos : 2 ≤ n.id :=
    calc
      2 ≤ f.id := Program.two_le_id hf
      _ ≤ a.start := Nat.le_of_lt (Placed.span_of_mem_arms hfa).1
      _ ≤ n.id := hid.1
  obtain ⟨q, hq, rfl⟩ := exists_placed_of_mem_nodes hn hpos
  exact Program.not_holds_of_depth_eq_zero hq hdepth ha hid

/-- What is known of an expression that a loop computes at a node and that is to be hoisted. -/
structure Hoisted (p : Program) (t : SymbolTable) (l : ForLoop) (e : Expr Float) (n : Node) :
    Prop where
  inside : l.contains n.id = true
  computes : ComputesAt ((Graph.build p).effects t) n.id e
  depth_eq : ((Graph.build p).node? l.forNode).map Node.depth = some n.depth
  /-- Nothing from the `FOR` to the `NEXT` writes what the expression reads. -/
  unchanged : ∀ other, l.forNode ≤ other → other ≤ l.nextNode → ∀ tag ∈ e.readTags,
    ¬ WritesTagAt ((Graph.build p).effects t) other tag
  /-- Control does not leave the body for a subroutine. -/
  stays : ∀ other target, l.contains other = true →
    (target, .call) ∉ (Graph.build p).successors other
  /-- Rounds that stay in the body and do not jump over the node meet it. -/
  met : (n.depth = 0 ∨ ∀ a ∈ p.arms, a.Holds n.id → a.Holds l.forNode) → ∀ stack stack' past,
    History (RoundStep p l n.id) ((Graph.build p).next l.forNode, stack)
      ((l.nextNode, stack') :: past) →
    ∃ s ∈ (l.nextNode, stack') :: past, s.1 = n.id

/--
Every invariant that is reported as hoistable is an expression that the loop computes at a node of
its body, at the depth of the `FOR`. Nothing in the loop writes what it reads, and the rounds that
stay in the body compute it, unless they jump over the node or this is in another arm.
-/
theorem hoistable_invariants (p : Program) (t : SymbolTable) :
    ∀ info ∈ analyzeLoops (Graph.build p) ((Graph.build p).effects t), ∀ inv ∈ info.invariants,
      inv.isHoistable = true →
      ∃ l ∈ (Graph.build p).forLoops, ∃ e n, n ∈ (Graph.build p).nodes ∧
        info.startLine = (Graph.build p).lineOf l.forNode ∧
        info.endLine = (Graph.build p).lineOf l.nextNode ∧ info.counter = l.counter ∧
        inv.expression = e.canonical ∧ Hoisted p t l e n := by
  intro info hinfo inv hinv hoistable
  rw [analyzeLoops, LoopSummary.sort, List.mem_mergeSort] at hinfo
  obtain ⟨l, hl, start, stop, step, rfl⟩ := LoopContext.exists_loop_of_mem_summaries hinfo
  obtain ⟨o, ho, hexpression, hsafe⟩ := LoopContext.exists_occurrence_of_mem_invariants hinv
  obtain ⟨hcalls, hdepth⟩ := hsafe hoistable
  obtain ⟨n, hn, hcomputes, hinvariant, hdepth'⟩ :=
    LoopContext.exists_node_of_mem_invariantOccurrences ho
  obtain ⟨hnode, hinside, -⟩ := LoopContext.mem_body_iff.1 hn
  refine ⟨l, hl, o.expr, n, hnode, rfl, rfl, rfl, hexpression, hinside, hcomputes, ?_, ?_, ?_, ?_⟩
  · obtain ⟨f, hf, hfid, -⟩ := Program.exists_for_of_mem_forLoops hl
    have hfor : (Graph.build p).node? l.forNode = some (f.node p.edges) :=
      hfid ▸ Graph.node?_build_of_mem_placed hf
    rw [hdepth, LoopContext.ofGraph, hfor, eq_comm, beq_iff_eq] at hdepth'
    rw [hfor, hdepth']
    rfl
  · exact fun other => LoopContext.not_writesTagAt_of_isInvariant rfl rfl hl hinside hinvariant
  · exact fun other target => LoopContext.not_mem_successors_of_any_eq_false rfl hcalls
  · refine fun harms stack stack' past => exists_mem_round hl hinside fun a ha hid => ?_
    rcases harms with hzero | harms
    · exact absurd hid (Graph.not_holds_of_depth_eq_zero hnode hzero ha)
    · exact harms a ha hid

/-! ## A round that meets an invariant and one that does not -/

namespace SampleLoop

/-- The expression `A * B`. -/
def product : Expr Float := .binary .mul (.scalar ⟨"A"⟩) (.scalar ⟨"B"⟩)

/-- A loop that assigns `A * B` in its body after the statements in between. Behind it `A` is
changed, from where control goes to the `NEXT`. -/
def program (between : List ProgramLine) : Program :=
  ⟨⟨10, [.command ⟨10, 4⟩ (.input none none [.scalar ⟨"A"⟩, .scalar ⟨"B"⟩, .scalar ⟨"C"⟩])], 1⟩ ::
    ⟨20, [.command ⟨20, 4⟩ (.forLoop ⟨"I"⟩ (.number 1 "1") (.number 10 "10") none)], 2⟩ ::
    (between ++
      [⟨40, [.command ⟨40, 4⟩ (.assign (.scalar ⟨"X"⟩) product)], 4⟩,
        ⟨50, [.command ⟨50, 4⟩ (.next [⟨"I"⟩])], 5⟩,
        ⟨60, [.command ⟨60, 4⟩ .endRun], 6⟩,
        ⟨70, [.command ⟨70, 4⟩ (.assign (.scalar ⟨"A"⟩) (.scalar ⟨"C"⟩))], 7⟩,
        ⟨80, [.command ⟨80, 4⟩ (.goto 50)], 8⟩])⟩

/-- The line `IF C THEN 70`. -/
def leave : ProgramLine := ⟨30, [.conditional ⟨30, 4⟩ (.scalar ⟨"C"⟩) (.line 70) none], 3⟩

def graph (between : List ProgramLine) : Graph := .build (program between)

def table (between : List ProgramLine) : SymbolTable := (SymbolTable.build (program between)).table

def effects (between : List ProgramLine) : Array Effects :=
  (graph between).effects (table between)

/-- The product is reported as hoistable. -/
theorem exists_hoistable (between : List ProgramLine)
    (h : ((analyzeLoops (graph between) (effects between)).any fun info =>
      info.invariants.any fun inv => inv.isHoistable && inv.expression == product.canonical) =
        true) :
    ∃ info ∈ analyzeLoops (graph between) (effects between), ∃ inv ∈ info.invariants,
      inv.isHoistable = true ∧ inv.expression = product.canonical := by
  obtain ⟨info, hinfo, h⟩ := List.any_eq_true.1 h
  obtain ⟨inv, hinv, h⟩ := List.any_eq_true.1 h
  rw [Bool.and_eq_true, beq_iff_eq] at h
  exact ⟨info, hinfo, inv, hinv, h⟩

end SampleLoop

open SampleLoop in
/-- Without a line in between, the round from the start of the body to the `NEXT` computes the
product, and nothing in the loop writes what it reads. -/
theorem exists_hoistable_straightLoop :
    ∃ info ∈ analyzeLoops (graph []) (effects []), ∃ inv ∈ info.invariants,
      inv.isHoistable = true ∧ ∃ l ∈ (graph []).forLoops, ∃ e n, inv.expression = e.canonical ∧
        Hoisted (program []) (table []) l e n ∧
        ∃ s ∈ [((5 : NodeId), ([] : List NodeId)), (4, [])], s.1 = n.id := by
  obtain ⟨info, hinfo, inv, hinv, hoistable, -⟩ := exists_hoistable [] (by decide +kernel)
  obtain ⟨l, hl, e, n, -, -, -, -, hexpression, hoisted⟩ :=
    hoistable_invariants (program []) (table []) info hinfo inv hinv hoistable
  have hloop : l = ⟨3, 5, "I"⟩ := by
    have loops : (graph []).forLoops = [⟨3, 5, "I"⟩] := by decide +kernel
    exact List.mem_singleton.1 (loops ▸ hl)
  subst hloop
  have top : n.depth = 0 := by
    have depth : ((graph []).node? 3).map Node.depth = some 0 := by decide +kernel
    exact Option.some.inj (hoisted.depth_eq.symm.trans depth)
  have round : History (RoundStep (program []) ⟨3, 5, "I"⟩ n.id)
      ((graph []).next 3, []) [(5, []), (4, [])] := by
    have start : (graph []).next 3 = 4 := by decide +kernel
    rw [start]
    refine History.start.step ⟨?_, by decide, fun hlt hpast => ?_⟩
    · exact Graph.stackStep_of_normal (program []) (by decide +kernel) []
    · -- no number is between those of neighbours
      exact absurd (Nat.lt_of_lt_of_le hpast hlt) (Nat.lt_irrefl _)
  exact ⟨info, hinfo, inv, hinv, hoistable, _, hl, e, n, hexpression, hoisted,
    hoisted.met (.inl top) [] [] _ round⟩

open SampleLoop in
/-- A conditional jump out of the body leads to a round that reaches the `NEXT` without computing
the product, which is reported as hoistable, and on the way writes `A`, which the product reads. -/
theorem hoistable_unsafe :
    ∃ info ∈ analyzeLoops (graph [leave]) (effects [leave]), ∃ inv ∈ info.invariants,
      inv.isHoistable = true ∧ inv.expression = product.canonical ∧
      (graph [leave]).forLoops = [⟨3, 6, "I"⟩] ∧ (graph [leave]).next 3 = 4 ∧
      (graph [leave]).StackRun
        ([(6, []), (9, []), (8, []), (4, [])] ++ [(3, []), (2, []), (Graph.entry, [])]) ∧
      (∀ id ∈ [6, 9, 8, 4], ∀ e, ComputesAt (effects [leave]) id e →
        e.canonical ≠ product.canonical) ∧
      "A" ∈ product.readTags ∧ WritesTagAt (effects [leave]) 8 "A" := by
  obtain ⟨info, hinfo, inv, hinv, hoistable, hexpression⟩ :=
    exists_hoistable [leave] (by decide +kernel)
  refine ⟨info, hinfo, inv, hinv, hoistable, hexpression, by decide +kernel, by decide +kernel, ?_,
    ?_, by decide +kernel, ?_⟩
  · have step {id target : NodeId} (kind : EdgeKind)
        (h : (target, kind) ∈ (graph [leave]).successors id) (hcall : kind ≠ .call)
        (hback : kind ≠ .back) : (graph [leave]).StackStep (id, []) (target, []) :=
      Graph.stackStep_of_mem (Graph.wellFormed_build _) h hcall hback []
    have toInput : (graph [leave]).StackStep (Graph.entry, []) (2, []) :=
      step .normal (by decide +kernel) nofun nofun
    have toLoop : (graph [leave]).StackStep (2, []) (3, []) :=
      step .normal (by decide +kernel) nofun nofun
    have toBody : (graph [leave]).StackStep (3, []) (4, []) :=
      step .normal (by decide +kernel) nofun nofun
    have outside : (graph [leave]).StackStep (4, []) (8, []) :=
      step .thenArm (by decide +kernel) nofun nofun
    have onwards : (graph [leave]).StackStep (8, []) (9, []) :=
      step .normal (by decide +kernel) nofun nofun
    have back : (graph [leave]).StackStep (9, []) (6, []) :=
      step .jump (by decide +kernel) nofun nofun
    exact (((((History.start.step toInput).step toLoop).step toBody).step outside).step
      onwards).step back
  · have others : ∀ id ∈ [6, 9, 8, 4], ((effects [leave])[id]?).all (fun fx =>
        fx.roots.all fun root => root.subterms.all fun e => e.canonical != product.canonical) =
          true := by
      decide +kernel
    rintro id hid e ⟨fx, hfx, root, hroot, he⟩
    have h := others id hid
    rw [hfx, Option.all_some, List.all_eq_true] at h
    exact bne_iff_ne.1 (List.all_eq_true.1 (h root hroot) e he)
  · have writes : ((effects [leave])[8]?).any (fun fx => fx.writtenTags.contains "A") = true := by
      decide +kernel
    obtain ⟨fx, hfx, hA⟩ := (Option.any_eq_true ..).1 writes
    exact ⟨fx, hfx, List.contains_iff_mem.1 hA⟩

end LineBasic
