import LineBasic.Proofs.Flow.CallStrings
import LineBasic.Flow.Effects

/-!
# Reads and writes on a path

Nodes read and write scalars, and write arrays, which count by their tags. Only nodes of statements
do so (`Graph.getElem?_effects`).
-/

namespace LineBasic

variable (effects : Array Effects)

/-- The node reads the scalar. -/
def ReadsAt (id : NodeId) (name : String) : Prop :=
  ∃ fx, effects[id]? = some fx ∧ ∃ u ∈ fx.uses, u.name = name

instance (id : NodeId) (name : String) : Decidable (ReadsAt effects id name) :=
  decidable_of_iff ((effects[id]?).any (fun fx => fx.reads name) = true) <| by
    simp only [ReadsAt, Option.any_eq_true, Effects.reads, List.any_eq_true, beq_iff_eq]

/-- The node writes the scalar. -/
def WritesAt (id : NodeId) (name : String) : Prop :=
  ∃ fx, effects[id]? = some fx ∧ name ∈ fx.defs

instance (id : NodeId) (name : String) : Decidable (WritesAt effects id name) :=
  decidable_of_iff ((effects[id]?).any (fun fx => fx.writes name) = true) <| by
    rw [Option.any_eq_true, WritesAt]
    exact exists_congr fun fx => and_congr_right fun _ => List.contains_iff_mem

/-- The node writes an element of the array. -/
def WritesArrayAt (id : NodeId) (name : String) : Prop :=
  ∃ fx, effects[id]? = some fx ∧ name ∈ fx.arrayDefs

/-- The node writes the scalar or, if the name is a tag, the array. -/
def WritesTagAt (id : NodeId) (tag : String) : Prop :=
  ∃ fx, effects[id]? = some fx ∧ tag ∈ fx.writtenTags

/-- Of the loops that a statement closes, its effects depend on the counters only. -/
theorem Statement.effects_congr {t : SymbolTable} {closed closed' : List ForLoop} (s : Statement)
    (h : closed'.map ForLoop.counter = closed.map ForLoop.counter) :
    s.effects t closed' = s.effects t closed := by
  rcases s with ⟨place, body⟩ | _
  · cases body with
    | next counters =>
      cases counters with
      | nil => simp only [Statement.effects, Command.effects, Command.steppedCounters, h]
      | cons => rfl
    | _ => rfl
  · rfl

namespace Graph

theorem getElem?_effects (g : Graph) (t : SymbolTable) (id : NodeId) :
    (g.effects t)[id]? = (g.node? id).map fun n =>
      n.statement.elim .none fun s => s.effects t (g.loopsClosedBy n.id) := by
  rw [Graph.effects, Array.getElem?_map, node?]

/-- What the node of a statement reads and writes. -/
theorem getElem?_effects_of_mem_placed {p : Program} {q : Placed} (hq : q ∈ p.placed)
    (t : SymbolTable) : ((build p).effects t)[q.id]? =
      some (q.statement.effects t ((build p).loopsClosedBy q.id)) := by
  rw [getElem?_effects, node?_build_of_mem_placed hq]
  rfl

theorem WellFormed.node?_id {g : Graph} (hg : g.WellFormed) {n : Node} (hn : n ∈ g.nodes) :
    g.node? n.id = some n := by
  obtain ⟨id, hid⟩ := Array.mem_iff_getElem?.1 hn
  exact hg.id_eq hid ▸ hid

/-- Every node but the entry and the exit is that of a statement. -/
theorem exists_placed_of_mem_nodes {p : Program} {n : Node} (hn : n ∈ (build p).nodes)
    (hpos : 2 ≤ n.id) : ∃ q ∈ p.placed, n = q.node p.edges := by
  have hnode : (build p).node? n.id = some n := (wellFormed_build p).node?_id hn
  have hlt : n.id < (build p).size := (Array.getElem?_eq_some_iff.1 hnode).1
  obtain ⟨q, hq, hid⟩ := p.exists_mem_placed hpos (size_build p ▸ hlt)
  have hq' := node?_build_of_mem_placed hq
  rw [hid, hnode] at hq'
  exact ⟨q, hq, Option.some.inj hq'⟩

/-- What a node of a command reads and writes. -/
theorem WellFormed.getElem?_effects_of_command {g : Graph} (hg : g.WellFormed) {n : Node}
    (hn : n ∈ g.nodes) {c : Command} (hc : n.command? = some c) (t : SymbolTable) :
    (g.effects t)[n.id]? = some (c.effects t (g.loopsClosedBy n.id)) := by
  rw [getElem?_effects, hg.node?_id hn]
  obtain ⟨s, hs, hsc⟩ := Option.bind_eq_some_iff.1 hc
  cases s with
  | command position body =>
    obtain rfl : body = c := Option.some.inj hsc
    simp [hs, Statement.effects]
  | conditional => cases hsc

/-- What is written is written by a command. -/
theorem exists_command_of_writesAt {p : Program} {t : SymbolTable} {id : NodeId} {name : String}
    (h : WritesAt ((build p).effects t) id name) :
    ∃ q ∈ p.placed, q.id = id ∧ ∃ c, q.statement.command? = some c ∧
      name ∈ (c.effects t ((build p).loopsClosedBy id)).defs := by
  obtain ⟨fx, hfx, hname⟩ := h
  rw [getElem?_effects] at hfx
  obtain ⟨n, hn, rfl⟩ := Option.map_eq_some_iff.1 hfx
  rcases eq_of_node?_build hn with ⟨hs, -⟩ | ⟨q, hq, rfl, rfl⟩
  · rw [hs] at hname
    cases hname
  · have hs : (q.node p.edges).statement = some q.statement := rfl
    rw [hs] at hname
    cases hstatement : q.statement with
    | command place body =>
      rw [hstatement] at hname
      exact ⟨q, hq, rfl, body, by rw [hstatement]; rfl, hname⟩
    | conditional =>
      rw [hstatement] at hname
      cases hname

end Graph
end LineBasic
