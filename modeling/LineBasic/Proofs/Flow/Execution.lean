import LineBasic.Proofs.Expr.Denotation
import LineBasic.Proofs.Flow.Effects

/-!
# Runs with values

A run of a program with the values of its scalars. A statement changes the scalars that it writes
and no others, and an assignment stores a value of its expression (`Executes`). What else is written
(by input, by a loop, by an exchange) may be any value.
-/

namespace LineBasic

/-- Where a run is, with the values of the scalars there. -/
structure MachineState (ν : Type) where
  control : Graph.StackState
  memory : Memory ν

variable {ν : Type} [Arithmetic ν] [LiteralValues ν]

/-- The statement that control is at is executed. -/
structure Executes (p : Program) (t : SymbolTable) (s s' : MachineState ν) : Prop where
  moves : (Graph.build p).StackStep s.control s'.control
  keeps : ∀ key, ¬ WritesAt ((Graph.build p).effects t) s.control.1 key →
    s'.memory key = s.memory key
  assigns : ∀ q ∈ p.placed, q.id = s.control.1 → ∀ name value,
    q.statement.command? = some (.assign (.scalar name) value) →
      value.Denotes s.memory (s'.memory name.key)

section Runs

variable {p : Program} {t : SymbolTable} {start : MachineState ν}

/-- The nodes of a run with values are those of a run with a stack. -/
theorem stackRun_of_executes {run : List (MachineState ν)}
    (hstart : start.control = (Graph.entry, [])) (h : History (Executes p t) start run) :
    (Graph.build p).StackRun (run.map MachineState.control) := by
  rw [Graph.StackRun, ← hstart]
  exact h.map Executes.moves

/-- The step from the entry leaves the memory as it is. -/
theorem executes_entry {stack : List NodeId} {control : Graph.StackState} (memory : Memory ν)
    (hmoves : (Graph.build p).StackStep (Graph.entry, stack) control) :
    Executes p t ⟨(Graph.entry, stack), memory⟩ ⟨control, memory⟩ where
  moves := hmoves
  keeps _ _ := rfl
  assigns q hq hid := by
    have hpos : 2 ≤ q.id := Program.two_le_id hq
    rw [hid] at hpos
    exact absurd hpos (Nat.not_succ_le_zero 1)

/-- A statement that assigns to no scalar may store anything in the scalars that it writes. -/
theorem executes_of_agree {q : Placed} (hq : q ∈ p.placed)
    (hc : ∀ name value, q.statement.command? ≠ some (.assign (.scalar name) value))
    {stack : List NodeId} {control : Graph.StackState} {memory memory' : Memory ν}
    (hmoves : (Graph.build p).StackStep (q.id, stack) control)
    (hagree : ∀ key, ¬ WritesAt ((Graph.build p).effects t) q.id key → memory' key = memory key) :
    Executes p t ⟨(q.id, stack), memory⟩ ⟨control, memory'⟩ where
  moves := hmoves
  keeps := hagree
  assigns q' hq' hid name value hc' := by
    obtain rfl := Program.eq_of_id_eq hq' hq hid
    exact absurd hc' (hc name value)

/-- A statement that assigns to no scalar may leave the memory as it is. -/
theorem executes_of_ne_assign {q : Placed} (hq : q ∈ p.placed)
    (hc : ∀ name value, q.statement.command? ≠ some (.assign (.scalar name) value))
    {stack : List NodeId} {control : Graph.StackState} (memory : Memory ν)
    (hmoves : (Graph.build p).StackStep (q.id, stack) control) :
    Executes p t ⟨(q.id, stack), memory⟩ ⟨control, memory⟩ :=
  executes_of_agree hq hc hmoves fun _ _ => rfl

/-- An assignment stores a value that its expression denotes. -/
theorem executes_assign {q : Placed} (hq : q ∈ p.placed) {name : Name} {value : Expr Float}
    (hc : q.statement.command? = some (.assign (.scalar name) value)) {stack : List NodeId}
    {control : Graph.StackState} {memory : Memory ν} {v : Value ν}
    (hmoves : (Graph.build p).StackStep (q.id, stack) control) (hv : value.Denotes memory v) :
    Executes p t ⟨(q.id, stack), memory⟩ ⟨control, Function.update memory name.key v⟩ where
  moves := hmoves
  keeps key hkey := by
    have hn := Array.mem_of_getElem? (Graph.node?_build_of_mem_placed hq)
    have hfx := (Graph.wellFormed_build p).getElem?_effects_of_command hn hc t
    refine Function.update_of_ne ?_ _ _
    rintro rfl
    exact hkey ⟨_, hfx, List.mem_singleton_self _⟩
  assigns q' hq' hid name' value' hc' := by
    obtain rfl := Program.eq_of_id_eq hq' hq hid
    obtain ⟨⟨rfl⟩, rfl⟩ := Command.assign.inj (Option.some.inj (hc'.symm.trans hc))
    dsimp only
    rw [Function.update_self]
    exact hv

end Runs

end LineBasic
