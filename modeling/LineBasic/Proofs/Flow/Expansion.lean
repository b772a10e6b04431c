import LineBasic.Proofs.Flow.ForwardSubstitution

/-!
# Graphs with nodes drawn out to chains

In an expansion of a graph, a node may be drawn out to a chain: its head has the place of the node,
and control passes on through inner nodes before it leaves the chain where it leaves the node. For a
scalar that no inner node writes, the definitions that reach the heads are those that reach the
nodes of the first graph (`Expansion.reaches_head_iff`). If the second graph may do more than the
first one, one direction is left (`Embeds.reaches_head`).
-/

namespace LineBasic
namespace Graph

variable {g g' : Graph}

/-- Some path under call strings leads to a node. -/
def HasPath (g : Graph) (r : NodeId) : Prop := ∃ calls past, g.ContextPath ((r, calls) :: past)

/-- Edges that are no calls lead from one node to another one, through inner nodes only. -/
inductive Glides (g : Graph) (inner : NodeId → Prop) : NodeId → NodeId → Prop
  | edge {id target : NodeId} {kind : EdgeKind} : (target, kind) ∈ g.successors id →
    kind ≠ .call → Glides g inner id target
  | through {id target between : NodeId} {kind : EdgeKind} : (between, kind) ∈ g.successors id →
    kind ≠ .call → inner between → Glides g inner between target → Glides g inner id target

/--
What the first graph does between its nodes, the second one does between their heads, perhaps on a
way through inner nodes; `inner id` are those in the chain of the node `id`.
-/
structure Embeds (g g' : Graph) (head : NodeId → NodeId) (inner : NodeId → NodeId → Prop) :
    Prop where
  entry : head entry = entry
  returnAt {id} : g'.ReturnAt (head id) ↔ g.ReturnAt id
  not_returnAt_inner {id n} : inner id n → ¬ g'.ReturnAt n
  next_of_call {site t} : (t, .call) ∈ g.successors site → g'.next (head site) = head (g.next site)
  /-- Calls and the edges of a `RETURN` lead from head to head. -/
  direct {id t kind} : (t, kind) ∈ g.successors id → kind = .call ∨ g.ReturnAt id →
    (head t, kind) ∈ g'.successors (head id)
  along {id t kind} : (t, kind) ∈ g.successors id → kind ≠ .call →
    Glides g' (fun n => ∃ id, inner id n) (head id) (head t)

/--
The second graph is the first one with nodes drawn out to chains: `head` is the first node of the
chain of a node, `inner` says which nodes come later in it.
-/
structure Expansion (g g' : Graph) (head : NodeId → NodeId) (inner : NodeId → NodeId → Prop) :
    Prop extends Embeds g g' head inner where
  injective : Function.Injective head
  head_not_inner {id id'} : ¬ inner id (head id')
  not_returnAt_drawn {id n} : inner id n → ¬ g.ReturnAt id
  /-- An edge stays in the chain, or it leaves the chain as the node is left. -/
  origin {id n t kind} : (t, kind) ∈ g'.successors n → n = head id ∨ inner id n →
    (inner id t ∧ kind ≠ .call) ∨ ∃ t₀ kind₀, (t₀, kind₀) ∈ g.successors id ∧ t = head t₀ ∧
      (kind₀ = .call ↔ kind = .call) ∧ (kind = .call → n = head id)

/-- Inner nodes write the scalar nowhere, and heads where their nodes write it. -/
structure Embeds.Writes (head : NodeId → NodeId) (inner : NodeId → NodeId → Prop)
    (effects effects' : Array Effects) (name : String) : Prop where
  head {id} : WritesAt effects' (head id) name ↔ WritesAt effects id name
  inner {id n} : inner id n → ¬ WritesAt effects' n name

/-- Without effects, nothing is written. -/
theorem Embeds.writes_nil {head : NodeId → NodeId} {inner : NodeId → NodeId → Prop}
    (name : String) : Embeds.Writes head inner #[] #[] name := by
  have silent (n : NodeId) : ¬ WritesAt #[] n name := fun ⟨_, h, _⟩ => by simp at h
  exact ⟨⟨fun h => absurd h (silent _), fun h => absurd h (silent _)⟩, fun _ => silent _⟩

/-- A state of the first graph at the head of its node. -/
def lift (head : NodeId → NodeId) (c : ContextNode) : ContextNode := (head c.1, c.2.map head)

/-- The last definitions among the second nodes are the heads of those among the first ones. -/
def SameLast (head : NodeId → NodeId) (effects effects' : Array Effects) (name : String)
    (nodes nodes' : List NodeId) : Prop :=
  ∀ d', LastWriter effects' nodes' name d' ↔ ∃ d, d' = head d ∧ LastWriter effects nodes name d

namespace SameLast

variable {head : NodeId → NodeId} {inner : NodeId → NodeId → Prop}
  {effects effects' : Array Effects} {name : String} {nodes nodes' : List NodeId}

theorem nil : SameLast head effects effects' name [] [] := fun _ =>
  ⟨fun h => absurd h not_lastWriter_nil, fun ⟨_, _, h⟩ => absurd h not_lastWriter_nil⟩

/-- A node and its head come next. -/
theorem cons (h : SameLast head effects effects' name nodes nodes')
    (hw : Embeds.Writes head inner effects effects' name) (id : NodeId) :
    SameLast head effects effects' name (id :: nodes) (head id :: nodes') := by
  intro d'
  simp only [lastWriter_cons_iff, hw.head, h d']
  constructor
  · rintro (⟨rfl, hwrites⟩ | ⟨hsilent, d, rfl, hd⟩)
    · exact ⟨id, rfl, .inl ⟨rfl, hwrites⟩⟩
    · exact ⟨d, rfl, .inr ⟨hsilent, hd⟩⟩
  · rintro ⟨d, rfl, ⟨rfl, hwrites⟩ | ⟨hsilent, hd⟩⟩
    · exact .inl ⟨rfl, hwrites⟩
    · exact .inr ⟨hsilent, d, rfl, hd⟩

/-- An inner node comes next. -/
theorem cons_inner (h : SameLast head effects effects' name nodes nodes')
    (hw : Embeds.Writes head inner effects effects' name) {id n : NodeId} (hn : inner id n) :
    SameLast head effects effects' name nodes (n :: nodes') := by
  intro d'
  rw [lastWriter_cons_iff, ← h d']
  simp [hw.inner hn]

/-- If the last definitions are the same, all nodes are silent or none are. -/
theorem silent_iff (h : SameLast head effects effects' name nodes nodes') :
    (∀ n ∈ nodes', ¬ WritesAt effects' n name) ↔ ∀ n ∈ nodes, ¬ WritesAt effects n name := by
  have writes (effects : Array Effects) (nodes : List NodeId) :
      (∃ n ∈ nodes, WritesAt effects n name) ↔ ∃ d, LastWriter effects nodes name d := by
    constructor
    · rintro ⟨n, hn, hwrites⟩
      obtain ⟨last, -, hlast⟩ := exists_lastWriter hn hwrites
      exact ⟨last, hlast⟩
    · rintro ⟨d, hd⟩
      have hwrites := hd.writesAt
      obtain ⟨since, before, rfl, -⟩ := hd
      exact ⟨d, List.mem_append_right _ List.mem_cons_self, hwrites⟩
  have hiff : (∃ n ∈ nodes', WritesAt effects' n name) ↔ ∃ n ∈ nodes, WritesAt effects n name := by
    rw [writes, writes]
    constructor
    · rintro ⟨d', hd'⟩
      obtain ⟨d, -, hd⟩ := (h d').1 hd'
      exact ⟨d, hd⟩
    · rintro ⟨d, hd⟩
      exact ⟨head d, (h _).2 ⟨d, rfl, hd⟩⟩
  simpa using not_congr hiff

end SameLast

/-- A step that follows no call string takes an edge. -/
theorem contextStep_along {id : NodeId} {calls : CallString} (hr : ¬ g.ReturnAt id)
    {t : NodeId} {kind : EdgeKind} (ht : (t, kind) ∈ g.successors id) (hk : kind ≠ .call) :
    g.ContextStep (id, calls) (t, calls) := by
  have hstep : g.ContextStep (id, calls)
      (t, if kind = .call then (id :: calls).take callStringLimit else calls) :=
    contextStep_of_mem (fun h => absurd h hr) ht
  rwa [if_neg hk] at hstep

/-- Gliding is a part of a path, the latest node first. -/
theorem Glides.exists_contextPath {inner : NodeId → Prop} {id target : NodeId}
    (h : Glides g inner id target) (hinner : ∀ n, inner n → ¬ g.ReturnAt n) {calls : CallString}
    {past : List ContextNode} (hr : ¬ g.ReturnAt id) (hpath : g.ContextPath ((id, calls) :: past)) :
    ∃ between : List NodeId, (∀ n ∈ between, inner n) ∧
      g.ContextPath
        ((target, calls) :: (between.map fun n => (n, calls)) ++ (id, calls) :: past) := by
  induction h generalizing past with
  | edge ht hk => exact ⟨[], List.forall_mem_nil _, hpath.step (contextStep_along hr ht hk)⟩
  | @through id target between kind ht hk hbetween _ ih =>
    obtain ⟨rest, hrest, hpath⟩ :=
      ih (hinner _ hbetween) (hpath.step (contextStep_along hr ht hk))
    refine ⟨rest ++ [between], fun n hn => ?_, by simpa using hpath⟩
    rcases List.mem_append.1 hn with hn | hn
    · exact hrest n hn
    · rwa [List.mem_singleton.1 hn]

section Embedding

variable {head : NodeId → NodeId} {inner : NodeId → NodeId → Prop}
  {effects effects' : Array Effects} {name : String}

/-- The calls of a state are calls of the graph. -/
def CalledFrom (g : Graph) (c : ContextNode) : Prop :=
  ∀ site ∈ c.2, ∃ t, (t, .call) ∈ g.successors site

theorem calledFrom_of_contextPath {c : ContextNode} {past : List ContextNode}
    (h : g.ContextPath (c :: past)) : CalledFrom g c := by
  generalize hpath : c :: past = path at h
  induction h generalizing c past with
  | start =>
    obtain ⟨rfl, -⟩ := List.cons.inj hpath
    exact List.forall_mem_nil _
  | @step s t _ _ hst ih =>
    obtain ⟨rfl, -⟩ := List.cons.inj hpath
    have hs : CalledFrom g s := ih rfl
    obtain ⟨id, calls⟩ := s
    rcases hst.return_or_edge with ⟨site, outer, -, rfl, rfl⟩ | ⟨-, kind, ht, hcalls⟩
    · exact fun other hother => hs other (List.mem_cons_of_mem _ hother)
    · intro site hsite
      rw [hcalls] at hsite
      split at hsite
      next hcall =>
        rcases List.mem_cons.1 (List.mem_of_mem_take hsite) with rfl | hsite
        · exact ⟨_, hcall ▸ ht⟩
        · exact hs site hsite
      next => exact hs site hsite

namespace Embeds

variable (h : Embeds g g' head inner)
include h

/-- A step of the first graph is a step between heads, or it glides from head to head. -/
theorem step_or_glides {c d : ContextNode} (hc : CalledFrom g c) (hcd : g.ContextStep c d) :
    g'.ContextStep (lift head c) (lift head d) ∨
      (d.2 = c.2 ∧ ¬ g.ReturnAt c.1 ∧
        Glides g' (fun n => ∃ id, inner id n) (head c.1) (head d.1)) := by
  obtain ⟨id, calls⟩ := c
  rcases hcd.return_or_edge with ⟨site, outer, hr, rfl, rfl⟩ | ⟨hr, kind, ht, hcalls⟩
  · obtain ⟨t, ht⟩ := hc site List.mem_cons_self
    have hstep : g'.ContextStep (head id, (site :: outer).map head)
        (g'.next (head site), outer.map head) := contextStep_return (h.returnAt.2 hr)
    rw [h.next_of_call ht] at hstep
    exact .inl hstep
  · have step (hdirect : (head d.1, kind) ∈ g'.successors (head id)) :
        g'.ContextStep (lift head (id, calls)) (lift head d) := by
      have hstep : g'.ContextStep (head id, calls.map head) (head d.1,
          if kind = .call then (head id :: calls.map head).take callStringLimit
            else calls.map head) :=
        contextStep_of_mem (fun hret => by rw [hr (h.returnAt.1 hret), List.map_nil]) hdirect
      have hlift : lift head d =
          (head d.1, if kind = .call then (head id :: calls.map head).take callStringLimit
            else calls.map head) := by
        rw [lift, hcalls]
        split <;> simp [List.map_take]
      rwa [hlift]
    by_cases hkind : kind = .call ∨ g.ReturnAt id
    · exact .inl (step (h.direct ht hkind))
    · rw [not_or] at hkind
      rw [if_neg hkind.1] at hcalls
      exact .inr ⟨hcalls, hkind.2, h.along ht hkind.1⟩

/-- Each path of the first graph is drawn out to one of the second graph with the same last
definitions. -/
theorem exists_lifted_path (hw : Writes head inner effects effects' name) {c : ContextNode}
    {past : List ContextNode} (hpath : g.ContextPath (c :: past)) :
    ∃ past', g'.ContextPath (lift head c :: past') ∧
      SameLast head effects effects' name (past.map Prod.fst) (past'.map Prod.fst) := by
  generalize hp : c :: past = path at hpath
  induction hpath generalizing c past with
  | start =>
    obtain ⟨rfl, rfl⟩ := List.cons.inj hp
    refine ⟨[], ?_, .nil⟩
    rw [lift, h.entry]
    exact .start
  | @step s t earlier hpath hst ih =>
    obtain ⟨rfl, rfl⟩ := List.cons.inj hp
    obtain ⟨past', hpath', hlast⟩ := ih rfl
    -- what is last before the node and in it, is last before the head and in it
    have hlast : SameLast head effects effects' name ((s :: earlier).map Prod.fst)
        ((lift head s :: past').map Prod.fst) := hlast.cons hw s.1
    rcases h.step_or_glides (calledFrom_of_contextPath hpath) hst with hstep | ⟨hcalls, hr, hglides⟩
    · exact ⟨_, hpath'.step hstep, hlast⟩
    · obtain ⟨between, hbetween, hpath⟩ := hglides.exists_contextPath
        (fun n ⟨_, hn⟩ => h.not_returnAt_inner hn) (fun hret => hr (h.returnAt.1 hret)) hpath'
      refine ⟨(between.map fun n => (n, s.2.map head)) ++ lift head s :: past', ?_, ?_⟩
      · rw [lift, hcalls]
        exact hpath
      · clear hpath
        induction between with
        | nil => exact hlast
        | cons n between ih =>
          rw [List.forall_mem_cons] at hbetween
          obtain ⟨⟨id, hn⟩, hbetween⟩ := hbetween
          exact (ih hbetween).cons_inner hw hn

/-- A node with a path has a path to its head. -/
theorem hasPath_head {r : NodeId} (hr : g.HasPath r) : g'.HasPath (head r) := by
  obtain ⟨calls, past, hpath⟩ := hr
  obtain ⟨past', hpath', -⟩ := h.exists_lifted_path (writes_nil "") hpath
  exact ⟨_, past', hpath'⟩

/-- The head of a definition that reaches a node reaches its head. -/
theorem reaches_head (hw : Writes head inner effects effects' name) {d r : NodeId}
    (hr : g.Reaches effects name d r) : g'.Reaches effects' name (head d) (head r) := by
  obtain ⟨calls, past, hpath, hlast⟩ := hr
  obtain ⟨past', hpath', hdefs⟩ := h.exists_lifted_path hw hpath
  exact ⟨_, past', hpath', (hdefs _).2 ⟨d, rfl, hlast⟩⟩

end Embeds
end Embedding

namespace Expansion

variable {head : NodeId → NodeId} {inner : NodeId → NodeId → Prop}
  {effects effects' : Array Effects} {name : String}

/-- A state of the second graph in the chain of the node of a state of the first one. -/
structure Tracks (head : NodeId → NodeId) (inner : NodeId → NodeId → Prop)
    (c c' : ContextNode) : Prop where
  node : c'.1 = head c.1 ∨ inner c.1 c'.1
  calls : c'.2 = c.2.map head

variable (h : Expansion g g' head inner)
include h

/-- A step of the second graph stays in the chain, or it is a step of the first graph to a head. -/
theorem inner_or_step {c c' d' : ContextNode} (hc : CalledFrom g c) (ht : Tracks head inner c c')
    (hcd : g'.ContextStep c' d') :
    (inner c.1 d'.1 ∧ d'.2 = c'.2) ∨ ∃ d, g.ContextStep c d ∧ d' = lift head d := by
  obtain ⟨id, calls⟩ := c
  obtain ⟨n, calls'⟩ := c'
  obtain rfl : calls' = calls.map head := ht.calls
  have hnode : n = head id ∨ inner id n := ht.node
  have returns (hret : g'.ReturnAt n) : n = head id ∧ g.ReturnAt id := by
    rcases hnode with rfl | hinner
    · exact ⟨rfl, h.returnAt.1 hret⟩
    · exact absurd hret (h.not_returnAt_inner hinner)
  rcases hcd.return_or_edge with ⟨site', outer', hr, hcons, rfl⟩ | ⟨hr, kind, hedge, hcalls⟩
  · obtain ⟨site, outer, rfl, rfl, rfl⟩ := List.map_eq_cons_iff.1 hcons
    obtain ⟨t, hsite⟩ := hc site List.mem_cons_self
    rw [h.next_of_call hsite]
    exact .inr ⟨(g.next site, outer), contextStep_return (returns hr).2, rfl⟩
  · rcases h.origin hedge hnode with ⟨hinner, hk⟩ | ⟨t₀, kind₀, ht₀, heq, hcall, hhead⟩
    · rw [if_neg hk] at hcalls
      exact .inl ⟨hinner, hcalls⟩
    · have hret : g.ReturnAt id → calls = [] := by
        intro hret
        rcases hnode with rfl | hinner
        · exact List.map_eq_nil_iff.1 (hr (h.returnAt.2 hret))
        · exact absurd hret (h.not_returnAt_drawn hinner)
      refine .inr ⟨_, contextStep_of_mem hret ht₀, Prod.ext heq ?_⟩
      rw [hcalls]
      by_cases hk : kind = .call
      · obtain rfl := hhead hk
        simp [lift, hk, hcall.2 hk, List.map_take]
      · have hk₀ : kind₀ ≠ .call := fun h => hk (hcall.1 h)
        simp [lift, hk, hk₀]

/-- Each path of the second graph is a path of the first one, drawn out: at a head the last
definitions are those before the node, later in the chain they are those after it. -/
theorem exists_projected_path (hw : Embeds.Writes head inner effects effects' name)
    {c' : ContextNode} {past' : List ContextNode} (hpath : g'.ContextPath (c' :: past')) :
    ∃ c past, c'.2 = c.2.map head ∧ g.ContextPath (c :: past) ∧
      (c'.1 = head c.1 ∧
          SameLast head effects effects' name (past.map Prod.fst) (past'.map Prod.fst) ∨
        inner c.1 c'.1 ∧
          SameLast head effects effects' name ((c :: past).map Prod.fst)
            (past'.map Prod.fst)) := by
  generalize hp : c' :: past' = path at hpath
  induction hpath generalizing c' past' with
  | start =>
    obtain ⟨rfl, rfl⟩ := List.cons.inj hp
    exact ⟨(Graph.entry, []), [], rfl, .start, .inl ⟨h.entry.symm, .nil⟩⟩
  | @step s t earlier hpath hst ih =>
    obtain ⟨rfl, rfl⟩ := List.cons.inj hp
    obtain ⟨c, past, hcalls, hcpath, hc⟩ := ih rfl
    -- what is last before the state and in it, is last before the node and in it
    have hafter : SameLast head effects effects' name ((c :: past).map Prod.fst)
        ((s :: earlier).map Prod.fst) := by
      rcases hc with ⟨hhead, hlast⟩ | ⟨hinner, hlast⟩
      · rw [List.map_cons, List.map_cons, hhead]
        exact hlast.cons hw c.1
      · exact hlast.cons_inner hw hinner
    have htracks : Tracks head inner c s := ⟨hc.imp And.left And.left, hcalls⟩
    rcases h.inner_or_step (calledFrom_of_contextPath hcpath) htracks hst with
      ⟨hinner, hsame⟩ | ⟨d, hstep, rfl⟩
    · exact ⟨c, past, hsame.trans hcalls, hcpath, .inr ⟨hinner, hafter⟩⟩
    · exact ⟨d, c :: past, rfl, hcpath.step hstep, .inl ⟨rfl, hafter⟩⟩

/-- A node has a path if and only if its head has one. -/
theorem hasPath_head_iff {r : NodeId} : g'.HasPath (head r) ↔ g.HasPath r := by
  refine ⟨?_, h.hasPath_head⟩
  rintro ⟨calls', past', hpath⟩
  obtain ⟨⟨id, calls⟩, past, -, hpath, ⟨hhead, -⟩ | ⟨hinner, -⟩⟩ :=
    h.exists_projected_path (Embeds.writes_nil "") hpath
  · obtain rfl := h.injective hhead
    exact ⟨calls, past, hpath⟩
  · exact absurd hinner h.head_not_inner

/-- The definitions that reach a head are the heads of those that reach its node. -/
theorem reaches_head_iff (hw : Embeds.Writes head inner effects effects' name) {d' r : NodeId} :
    g'.Reaches effects' name d' (head r) ↔ ∃ d, d' = head d ∧ g.Reaches effects name d r := by
  constructor
  · rintro ⟨calls', past', hpath, hlast⟩
    obtain ⟨⟨id, calls⟩, past, -, hpath, ⟨hhead, hdefs⟩ | ⟨hinner, -⟩⟩ :=
      h.exists_projected_path hw hpath
    · obtain rfl := h.injective hhead
      obtain ⟨d, rfl, hd⟩ := (hdefs d').1 hlast
      exact ⟨d, rfl, calls, past, hpath, hd⟩
    · exact absurd hinner h.head_not_inner
  · rintro ⟨d, rfl, hr⟩
    exact h.reaches_head hw hr

/-- Some path leads to a head without writing the scalar if and only if one leads to its node. -/
theorem exists_silent_path_head_iff (hw : Embeds.Writes head inner effects effects' name)
    {r : NodeId} :
    (∃ calls past, g'.ContextPath ((head r, calls) :: past) ∧
        ∀ d ∈ past, ¬ WritesAt effects' d.1 name) ↔
      ∃ calls past, g.ContextPath ((r, calls) :: past) ∧
        ∀ d ∈ past, ¬ WritesAt effects d.1 name := by
  have nodes (effects : Array Effects) (past : List ContextNode) :
      (∀ n ∈ past.map Prod.fst, ¬ WritesAt effects n name) ↔
        ∀ d ∈ past, ¬ WritesAt effects d.1 name := List.forall_mem_map
  constructor
  · rintro ⟨calls', past', hpath, hsilent⟩
    obtain ⟨⟨id, calls⟩, past, -, hpath, ⟨hhead, hlast⟩ | ⟨hinner, -⟩⟩ :=
      h.exists_projected_path hw hpath
    · obtain rfl := h.injective hhead
      exact ⟨calls, past, hpath, (nodes _ _).1 (hlast.silent_iff.1 ((nodes _ _).2 hsilent))⟩
    · exact absurd hinner h.head_not_inner
  · rintro ⟨calls, past, hpath, hsilent⟩
    obtain ⟨past', hpath', hlast⟩ := h.exists_lifted_path hw hpath
    exact ⟨_, past', hpath', (nodes _ _).1 (hlast.silent_iff.2 ((nodes _ _).2 hsilent))⟩

end Expansion
end Graph
end LineBasic
