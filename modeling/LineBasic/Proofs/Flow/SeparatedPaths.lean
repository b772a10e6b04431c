import LineBasic.Proofs.Flow.Expansion
import LineBasic.Proofs.Flow.UseCounts
import LineBasic.Proofs.Graph.SeparatedEdges

/-!
# Paths past separate `NEXT` statements

Paths of the graph of a program are paths of the graph with separate `NEXT` statements
(`Program.embeds_separateNexts`). If all loops but the outermost that a list of counters closes run
their bodies whenever they are entered, there are no others (`Program.expansion_separateNexts`). The
same nodes read and write a scalar, unless it is a later counter in some list
(`Program.agreeOn_headOf`, `Program.agreeOn_innerNode`).
-/

namespace LineBasic
namespace Program

variable {p : Program} {q : Placed}

/-! ## The graph is drawn out -/

theorem returnAt_headOf_iff {id : NodeId} :
    (Graph.build p.separateNexts).ReturnAt (p.headOf id) ↔ (Graph.build p).ReturnAt id := by
  rw [Graph.returnAt_build_iff, Graph.returnAt_build_iff]
  constructor
  · rintro ⟨q', hq', hid, hr⟩
    obtain ⟨q, hq, h⟩ := exists_standsAlone_of_mem hq' hr.ne_next
    exact ⟨q, hq, p.strictMono_headOf.injective (h.id_eq.symm.trans hid), h.command.symm.trans hr⟩
  · rintro ⟨q, hq, rfl, hr⟩
    obtain ⟨q', hq', h⟩ := exists_standsAlone hq hr.ne_next
    exact ⟨q', hq', h.id_eq, h.command.trans hr⟩

theorem not_returnAt_innerNode {id n : NodeId} (hinner : p.InnerNode id n) :
    ¬ (Graph.build p.separateNexts).ReturnAt n := by
  rw [Graph.returnAt_build_iff]
  rintro ⟨q', hq', rfl, hr⟩
  obtain ⟨q, hq, h⟩ := exists_standsAlone_of_mem hq' hr.ne_next
  obtain ⟨hstands, hne⟩ := hinner
  rw [h.id_eq] at hstands hne
  exact hne (congrArg p.headOf ((standsFor_headOf q.id).unique hstands))

theorem standsFor_source_iff {e : Edge} (he : e ∈ p.edges)
    (h : e.kind = .call ∨ (Graph.build p).ReturnAt e.source) {n : NodeId} :
    p.StandsFor n e.source ↔ n = p.headOf e.source := by
  have hsource : ∃ q ∈ p.placed, q.id = e.source ∧
      ∀ counters, q.statement.command? ≠ some (.next counters) := by
    rcases h with h | h
    · obtain ⟨q, hq, hid, hc⟩ := (soundEdge_of_mem_edges he).call h
      exact ⟨q, hq, hid, hc.ne_next⟩
    · obtain ⟨q, hq, hid, hr⟩ := Graph.returnAt_build_iff.1 h
      exact ⟨q, hq, hid, hr.ne_next⟩
  obtain ⟨q, hq, hid, hne⟩ := hsource
  rw [← hid]
  exact ⟨fun h => h.eq_headOf hq hne, fun h => h ▸ standsFor_headOf _⟩

section Glides

variable (h : (Graph.build p).issues = [])
include h

/-- Control passes along a row, and leaves it where a statement of the row is left. -/
theorem glides_in_row (hq : q ∈ p.placed) {m n t : NodeId} {kind : EdgeKind}
    (hm : p.StandsFor m q.id) (hmn : m ≤ n) (hn : p.StandsFor n q.id)
    (ht : ⟨n, t, kind⟩ ∈ p.separateNexts.edges) (hk : kind ≠ .call) :
    (Graph.build p.separateNexts).Glides (fun n => ∃ id, p.InnerNode id n) m t := by
  obtain ⟨d, rfl⟩ := Nat.exists_eq_add_of_le hmn
  -- from the end of the way to its start
  induction d generalizing m with
  | zero => exact .edge (Graph.mem_successors_build_iff.2 ht) hk
  | succ d ih =>
    have hsum : m + (d + 1) = m + 1 + d := by rw [Nat.add_assoc, Nat.add_comm 1]
    have hlt : m + 1 < p.headOf (q.id + 1) :=
      Nat.lt_of_le_of_lt (Nat.add_le_add_left (Nat.le_add_left 1 d) m) hn.2
    have hinner : p.InnerNode q.id (m + 1) :=
      ⟨⟨Nat.le_succ_of_le hm.1, hlt⟩, Nat.ne_of_gt (Nat.lt_succ_of_le hm.1)⟩
    obtain ⟨counters, hc⟩ := exists_next_of_innerNode hq hinner
    obtain ⟨kind', hk', he⟩ := exists_row_edge h hq hc hm
    rw [if_neg (Nat.ne_of_lt hlt)] at he
    rw [hsum] at hn ht
    exact .through (Graph.mem_successors_build_iff.2 he) hk' ⟨q.id, hinner⟩
      (ih hinner.1 (Nat.le_add_right _ _) hn ht)

/-- Control passes from every later statement of a row to what follows the list. -/
theorem glides_of_innerNode (hq : q ∈ p.placed) {n : NodeId} (hn : p.InnerNode q.id n) :
    (Graph.build p.separateNexts).Glides (fun n => ∃ id, p.InnerNode id n) n
      (p.headOf q.next) := by
  obtain ⟨last, hlast⟩ := Nat.exists_eq_succ_of_ne_zero (Nat.ne_zero_of_lt hn.1.2)
  have hle : n ≤ last := Nat.lt_succ_iff.1 (hlast ▸ hn.1.2)
  have hstands : p.StandsFor last q.id :=
    ⟨Nat.le_trans hn.1.1 hle, hlast ▸ Nat.lt_succ_self last⟩
  obtain ⟨counters, hc⟩ := exists_next_of_innerNode hq hn
  obtain ⟨kind, hk, he⟩ := exists_row_edge h hq hc hstands
  rw [if_pos hlast.symm] at he
  exact glides_in_row h hq hn.1 hle hstands he hk

/-- Control passes from the first statement of a row to the target of each of its edges. -/
theorem glides_of_standsFor {id n t : NodeId} {kind : EdgeKind} (hn : p.StandsFor n id)
    (ht : ⟨n, t, kind⟩ ∈ p.separateNexts.edges) (hk : kind ≠ .call)
    (hsource : id = Graph.entry ∨ ∃ q ∈ p.placed, q.id = id) :
    (Graph.build p.separateNexts).Glides (fun n => ∃ id, p.InnerNode id n) (p.headOf id) t := by
  rcases hsource with rfl | ⟨q, hq, rfl⟩
  · obtain rfl : n = Graph.entry := Nat.lt_one_iff.1 hn.2
    exact .edge (Graph.mem_successors_build_iff.2 ht) hk
  · exact glides_in_row h hq (standsFor_headOf _) hn.1 hn ht hk

/-- What the graph of the program does, the graph with separate `NEXT` statements does, too. -/
theorem embeds_separateNexts :
    (Graph.build p).Embeds (Graph.build p.separateNexts) p.headOf p.InnerNode where
  entry := p.headOf_entry
  returnAt := returnAt_headOf_iff
  not_returnAt_inner := not_returnAt_innerNode
  next_of_call {site t} ht := by
    obtain ⟨q, hq, rfl, hc⟩ :=
      (soundEdge_of_mem_edges (Graph.mem_successors_build_iff.1 ht)).call rfl
    exact (next_headOf hq hc.ne_next).1
  direct {id t kind} ht hdirect := by
    have he := Graph.mem_successors_build_iff.1 ht
    rcases exists_drawn h he with ⟨n, hn, hmem⟩ | ⟨q, hq, n, henters⟩
    · obtain rfl := (standsFor_source_iff he hdirect).1 hn
      exact Graph.mem_successors_build_iff.2 hmem
    · obtain rfl : kind = .loopSkip := henters.kind
      rcases hdirect with hcall | hr
      · cases hcall
      · cases (Graph.wellFormed_build p).kind_of_return hr ht
  along {id t kind} ht hk := by
    have he := Graph.mem_successors_build_iff.1 ht
    rcases exists_drawn h he with ⟨n, hn, hmem⟩ | ⟨q, hq, n, henters⟩
    · exact glides_of_standsFor h hn hmem hk (soundEdge_of_mem_edges he).source
    · obtain rfl : q.next = t := henters.target
      have hinner : p.InnerNode q.id n := ⟨henters.standsFor, henters.ne_headOf⟩
      exact .through (Graph.mem_successors_build_iff.2 henters.mem) hk ⟨q.id, hinner⟩
        (glides_of_innerNode h hq hinner)

/-- If no inner loop of a list can be skipped, the graph with separate `NEXT` statements does
nothing else. -/
theorem expansion_separateNexts (hloops : (Graph.build p).InnerLoopsIterate) :
    (Graph.build p).Expansion (Graph.build p.separateNexts) p.headOf p.InnerNode where
  toEmbeds := embeds_separateNexts h
  injective := p.strictMono_headOf.injective
  head_not_inner {id id'} := fun ⟨hstands, hne⟩ =>
    hne (congrArg p.headOf ((standsFor_headOf id').unique hstands))
  not_returnAt_drawn {id n} hinner hr := by
    obtain ⟨q, hq, rfl, hreturns⟩ := Graph.returnAt_build_iff.1 hr
    exact not_innerNode hq hreturns.ne_next hinner
  origin {id n t kind} ht hn := by
    have hstands : p.StandsFor n id := by
      rcases hn with rfl | hn
      · exact standsFor_headOf id
      · exact hn.1
    cases drawn_of_mem_edges h hloops (Graph.mem_successors_build_iff.1 ht) with
    | inRow id' hs hs' htarget hk =>
      obtain rfl : id = id' := hstands.unique hs
      have hsucc : t = n + 1 := htarget
      have hlater : p.headOf id < t := hsucc ▸ Nat.lt_succ_of_le hstands.1
      exact .inl ⟨⟨hs', Nat.ne_of_gt hlater⟩, hk⟩
    | leaves e he hs htarget hk =>
      obtain rfl : id = e.source := hstands.unique hs
      obtain rfl : kind = e.kind := hk
      exact .inr ⟨e.target, e.kind, Graph.mem_successors_build_iff.2 he, htarget, Iff.rfl,
        fun hcall => (standsFor_source_iff he (.inl hcall)).1 hs⟩

end Glides

end Program

/-! ## Reads and writes -/

/-- The counters that a statement steps after its first one. -/
def Statement.laterCounters (s : Statement) : List String :=
  match s.command? with
  | some (.next counters) => counters.tail.map Name.key
  | _ => []

/-- The counters that come later than the first in some list of a `NEXT`. -/
def Program.laterCounters (p : Program) : List String :=
  p.placed.flatMap fun q => q.statement.laterCounters

/-- The effects of a node, none where there is no node. -/
def effectsAt (effects : Array Effects) (id : NodeId) : Effects := (effects[id]?).getD .none

/-- The scalar is read in the same ways, and both write it or neither does. -/
structure Effects.AgreeOn (name : String) (fx fx' : Effects) : Prop where
  uses : fx'.uses.filter (fun u => u.name == name) = fx.uses.filter fun u => u.name == name
  defs : name ∈ fx'.defs ↔ name ∈ fx.defs

section Effects

variable {effects : Array Effects} {name : String} {t : SymbolTable}
  {closed closed' : List ForLoop}

theorem writesAt_iff_effectsAt {id : NodeId} :
    WritesAt effects id name ↔ name ∈ (effectsAt effects id).defs := by
  rw [WritesAt, effectsAt]
  rcases effects[id]? with _ | fx <;> simp [Effects.none]

theorem readsOf_eq_effectsAt (id : NodeId) :
    readsOf effects id name = (effectsAt effects id).uses.filter fun u => u.name == name := by
  rw [readsOf, effectsAt]
  rcases effects[id]? with _ | fx <;> rfl

theorem Effects.AgreeOn.refl (fx : Effects) : AgreeOn name fx fx := ⟨rfl, Iff.rfl⟩

theorem Statement.exists_of_length_separated_ne_one {s : Statement} (h : s.separated.length ≠ 1) :
    ∃ place first later, s = .command place (.next (first :: later)) := by
  rcases s with ⟨place, body⟩ | ⟨_, _, _, _ | _⟩
  · rw [Statement.separated, List.length_map] at h
    unfold Command.separated at h
    split at h
    · exact ⟨place, _, _, rfl⟩
    · exact absurd rfl h
  · exact absurd rfl h
  · exact absurd rfl h

/-- A statement that stands for another one alone has the same effects. -/
theorem Statement.effects_of_separated {s s' : Statement} (hs : s.separated = [s']) :
    s'.effects t closed = s.effects t closed := by
  rcases s with ⟨place, body⟩ | ⟨place, condition, onTrue, _ | onFalse⟩
  · obtain ⟨c, hc, rfl⟩ := List.map_eq_singleton_iff.1 hs
    unfold Command.separated at hc
    split at hc
    · cases hc
    · rw [(List.cons.inj hc).1]
  · obtain rfl := (List.cons.inj hs).1
    rfl
  · obtain rfl := (List.cons.inj hs).1
    rfl

/-- The first of the statements that stand for a `NEXT` has its effects on other scalars than the
later counters, and the rest of them have none. -/
theorem Statement.agreeOn_of_separated {s s' : Statement} {i : Nat}
    (hi : s.separated[i]? = some s') (hname : name ∉ s.laterCounters)
    (hclosed : s.separated.length = 1 →
      closed'.map ForLoop.counter = closed.map ForLoop.counter) :
    Effects.AgreeOn name (if i = 0 then s.effects t closed else .none) (s'.effects t closed') := by
  by_cases hone : s.separated.length = 1
  · obtain ⟨s'', hs''⟩ := List.length_eq_one_iff.1 hone
    rw [hs''] at hi
    obtain ⟨rfl, rfl⟩ : i = 0 ∧ s'' = s' := by
      cases i with
      | zero => exact ⟨rfl, Option.some.inj hi⟩
      | succ i => cases hi
    rw [if_pos rfl, s''.effects_congr (hclosed hone), Statement.effects_of_separated hs'']
    exact .refl _
  · obtain ⟨place, first, later, rfl⟩ := Statement.exists_of_length_separated_ne_one hone
    rw [Statement.separated, Command.separated_next (List.cons_ne_nil _ _), List.getElem?_map,
      List.getElem?_map, Option.map_map, Option.map_eq_some_iff] at hi
    obtain ⟨c, hc, rfl⟩ := hi
    have hlater : ∀ counter ∈ later, counter.key ≠ name := fun counter hmem heq =>
      hname (List.mem_map.2 ⟨counter, hmem, heq⟩)
    cases i with
    | zero =>
      obtain rfl : first = c := Option.some.inj hc
      have hnone : later.filter (fun counter => counter.key == name) = [] :=
        List.filter_eq_nil_iff.2 fun counter hmem h => hlater counter hmem (beq_iff_eq.1 h)
      constructor
      · simp [Statement.effects, Command.effects, Command.steppedCounters, List.filter_cons,
          List.filter_map, Function.comp_def, hnone]
      · have hnot : name ∉ later.map Name.key := hname
        show name ∈ [first.key] ↔ name ∈ first.key :: later.map Name.key
        rw [List.mem_singleton, List.mem_cons, or_iff_left hnot]
    | succ i =>
      have hne : c.key ≠ name := hlater c (List.mem_of_getElem? hc)
      constructor
      · simp [Statement.effects, Command.effects, Command.steppedCounters, hne, Effects.none]
      · simp [Statement.effects, Command.effects, Command.steppedCounters, hne.symm, Effects.none]

end Effects

namespace Program

variable {p : Program} {q : Placed} {name : String} {t : SymbolTable}

theorem effectsAt_of_mem_placed (hq : q ∈ p.placed) (t : SymbolTable) :
    effectsAt ((Graph.build p).effects t) q.id =
      q.statement.effects t ((Graph.build p).loopsClosedBy q.id) := by
  rw [effectsAt, Graph.getElem?_effects_of_mem_placed hq]
  rfl

theorem effectsAt_of_not_mem {id : NodeId} (h : ∀ q ∈ p.placed, q.id ≠ id) (t : SymbolTable) :
    effectsAt ((Graph.build p).effects t) id = .none := by
  rw [effectsAt, Graph.getElem?_effects]
  rcases hn : (Graph.build p).node? id with _ | n
  · rfl
  · rcases Graph.eq_of_node?_build hn with ⟨hs, -⟩ | ⟨q, hq, hid, -⟩
    · simp [hs]
    · exact absurd hid (h q hq)

/-- Node by node, what the statements that stand for a statement read and write. -/
theorem agreeOn_of_standsFor (h : (Graph.build p).issues = []) (hname : name ∉ p.laterCounters)
    (t : SymbolTable) {id i : NodeId} (hstands : p.StandsFor (p.headOf id + i) id) :
    Effects.AgreeOn name
      (if i = 0 then effectsAt ((Graph.build p).effects t) id else .none)
      (effectsAt ((Graph.build p.separateNexts).effects t) (p.headOf id + i)) := by
  by_cases hid : ∃ q ∈ p.placed, q.id = id
  · obtain ⟨q, hq, rfl⟩ := hid
    have hi : i < q.statement.separated.length := (standsFor_add_iff hq).1 hstands
    let q' : Placed := ⟨q.statement.separated[i], p.headOf q.id + i, q.depth,
      if i + 1 = q.statement.separated.length then p.headOf q.next else p.headOf q.id + i + 1⟩
    have hq' : q' ∈ p.separateNexts.placed :=
      (mem_placed_separateNexts_iff p).2 ⟨q, hq, i, List.getElem?_eq_getElem hi, rfl, rfl, rfl⟩
    have hname' : name ∉ q.statement.laterCounters := fun hmem =>
      hname (List.mem_flatMap.2 ⟨q, hq, hmem⟩)
    rw [effectsAt_of_mem_placed hq, show p.headOf q.id + i = q'.id from rfl,
      effectsAt_of_mem_placed hq']
    refine Statement.agreeOn_of_separated (List.getElem?_eq_getElem hi) hname' fun hone => ?_
    obtain rfl : i = 0 := Nat.lt_one_iff.1 (hone ▸ hi)
    exact loopsClosedBy_headOf h hq hone
  · have hnone : ∀ q ∈ p.placed, q.id ≠ id := fun q hq h => hid ⟨q, hq, h⟩
    have hnone' : ∀ q' ∈ p.separateNexts.placed, q'.id ≠ p.headOf id + i := by
      intro q' hq' hid'
      obtain ⟨q, hq, j, hj, hqid, -⟩ := (mem_placed_separateNexts_iff p).1 hq'
      have hstands' : p.StandsFor (p.headOf id + i) q.id :=
        hid' ▸ hqid ▸ (standsFor_add_iff hq).2 (List.getElem?_eq_some_iff.1 hj).1
      exact hnone q hq (hstands'.unique hstands)
    rw [effectsAt_of_not_mem hnone, effectsAt_of_not_mem hnone', ite_self]
    exact .refl _

section Names

variable (h : (Graph.build p).issues = []) (hname : name ∉ p.laterCounters) (t : SymbolTable)
include h hname

theorem agreeOn_headOf (id : NodeId) :
    Effects.AgreeOn name (effectsAt ((Graph.build p).effects t) id)
      (effectsAt ((Graph.build p.separateNexts).effects t) (p.headOf id)) :=
  agreeOn_of_standsFor (i := 0) h hname t (standsFor_headOf id)

theorem agreeOn_innerNode {id n : NodeId} (hn : p.InnerNode id n) :
    Effects.AgreeOn name .none (effectsAt ((Graph.build p.separateNexts).effects t) n) := by
  obtain ⟨hstands, hne⟩ := hn
  obtain ⟨i, rfl⟩ := Nat.exists_eq_add_of_le hstands.1
  have hi : i ≠ 0 := fun hi => hne (by rw [hi, Nat.add_zero])
  have hagree := agreeOn_of_standsFor h hname t hstands
  rwa [if_neg hi] at hagree

theorem writes_separateNexts :
    Graph.Embeds.Writes p.headOf p.InnerNode ((Graph.build p).effects t)
      ((Graph.build p.separateNexts).effects t) name where
  head {id} := by
    rw [writesAt_iff_effectsAt, writesAt_iff_effectsAt]
    exact (agreeOn_headOf h hname t _).defs
  inner {id n} hn := by
    rw [writesAt_iff_effectsAt, (agreeOn_innerNode h hname t hn).defs]
    exact List.not_mem_nil

theorem readsOf_headOf (id : NodeId) :
    readsOf ((Graph.build p.separateNexts).effects t) (p.headOf id) name =
      readsOf ((Graph.build p).effects t) id name := by
  rw [readsOf_eq_effectsAt, readsOf_eq_effectsAt]
  exact (agreeOn_headOf h hname t id).uses

theorem readsOf_innerNode {id n : NodeId} (hn : p.InnerNode id n) :
    readsOf ((Graph.build p.separateNexts).effects t) n name = [] := by
  rw [readsOf_eq_effectsAt]
  exact (agreeOn_innerNode h hname t hn).uses

end Names

end Program
end LineBasic
