import Mathlib.Algebra.GroupWithZero.Nat
import Mathlib.Order.Monotone.Basic
import LineBasic.Proofs.Graph.Renumbering
import LineBasic.Symbol.Build

/-!
# Separate `NEXT` statements

A `NEXT` for several counters can be written as one `NEXT` for each of them (`separateNexts`). Each
statement is then one or more statements in a row, and all numbers that the graph of the program
refers to are those of the first of these (`Program.placed_separateNexts`,
`Program.entryOf_separateNexts`). The symbol table stays the same.
-/

namespace LineBasic

/-- A `NEXT` for several counters, as one `NEXT` for each of them. -/
def Command.separated : Command → List Command
  | next (first :: second :: rest) => (first :: second :: rest).map fun counter => next [counter]
  | c => [c]

mutual

/-- The statements that stand for a statement, all at its place. -/
def Statement.separated : Statement → List Statement
  | .command place body => body.separated.map (.command place)
  | .conditional place condition onTrue none =>
    [.conditional place condition onTrue.separated none]
  | .conditional place condition onTrue (some onFalse) =>
    [.conditional place condition onTrue.separated (some onFalse.separated)]

def Arm.separated : Arm → Arm
  | .line number => .line number
  | .block statements => .block (separatedList statements)

def separatedList : List Statement → List Statement
  | [] => []
  | s :: rest => s.separated ++ separatedList rest

end

/-- The program with separate `NEXT` statements. -/
def Program.separateNexts (p : Program) : Program :=
  ⟨p.lines.map fun l => { l with statements := separatedList l.statements }⟩

/-- Statements in a row, without those inside them, numbered from `id` on. -/
def placedRow (id next depth : Nat) : List Statement → List Placed
  | [] => []
  | s :: rest =>
    ⟨s, id, depth, if rest.isEmpty then next else id + 1⟩ :: placedRow (id + 1) next depth rest

/-- A statement is the only one that stands for another, and has the same command. -/
structure Placed.StandsAlone (head : NodeId → NodeId) (q' q : Placed) : Prop
    extends q'.Twin head q where
  separated : q.statement.separated = [q'.statement]

/-- The statements that stand for a numbered statement; `head` numbers the first of them. -/
def Placed.separated (head : NodeId → NodeId) (q : Placed) : List Placed :=
  placedRow (head q.id) (head q.next) q.depth q.statement.separated

/-- There is room for the statements that stand for a statement. -/
def Placed.HasRoom (head : NodeId → NodeId) (q : Placed) : Prop :=
  head (q.id + 1) = head q.id + q.statement.separated.length

/-! ## Statements -/

theorem Command.length_separated_pos (c : Command) : 0 < c.separated.length := by
  unfold Command.separated
  split <;> simp

theorem Command.separated_next {counters : List Name} (h : counters ≠ []) :
    (next counters).separated = counters.map fun counter => next [counter] := by
  match counters with
  | [_] => rfl
  | _ :: _ :: _ => rfl

theorem Statement.length_separated_pos (s : Statement) : 0 < s.separated.length := by
  rcases s with ⟨place, body⟩ | ⟨_, _, _, _ | _⟩
  · rw [Statement.separated, List.length_map]
    exact body.length_separated_pos
  · exact Nat.one_pos
  · exact Nat.one_pos

/-- Another statement than a `NEXT` stays one statement with the same command. -/
theorem Statement.exists_separated_eq {s : Statement}
    (h : ∀ counters, s.command? ≠ some (.next counters)) :
    ∃ s', s.separated = [s'] ∧ s'.command? = s.command? := by
  rcases s with ⟨place, body⟩ | ⟨_, _, _, _ | _⟩
  · have hbody : body.separated = [body] := by
      unfold Command.separated
      split
      · exact absurd rfl (h _)
      · rfl
    exact ⟨.command place body, by rw [Statement.separated, hbody, List.map_singleton], rfl⟩
  · exact ⟨_, rfl, rfl⟩
  · exact ⟨_, rfl, rfl⟩

theorem Statement.line_of_mem_separated {s s' : Statement} (h : s' ∈ s.separated) :
    s'.line = s.line := by
  rcases s with ⟨place, body⟩ | ⟨_, _, _, _ | _⟩
  · obtain ⟨c, -, rfl⟩ := List.mem_map.1 h
    rfl
  · rw [List.mem_singleton.1 h]
    rfl
  · rw [List.mem_singleton.1 h]
    rfl

theorem Statement.command?_of_mem_separated {s s' : Statement} {counters : List Name}
    (h : s.command? = some (.next counters)) (hs' : s' ∈ s.separated) :
    ∃ counters', s'.command? = some (.next counters') := by
  rcases s with ⟨place, body⟩ | _
  · obtain rfl : body = .next counters := Option.some.inj h
    obtain ⟨c, hc, rfl⟩ := List.mem_map.1 hs'
    unfold Command.separated at hc
    split at hc
    · obtain ⟨counter, -, rfl⟩ := List.mem_map.1 hc
      exact ⟨_, rfl⟩
    · rw [List.mem_singleton] at hc
      exact ⟨_, congrArg some hc⟩
  · cases h

theorem isEmpty_separatedList (statements : List Statement) :
    (separatedList statements).isEmpty = statements.isEmpty := by
  cases statements with
  | nil => rfl
  | cons s rest =>
    have hs : s.separated ≠ [] := List.ne_nil_of_length_pos s.length_separated_pos
    simp [separatedList, hs]

theorem separatedList_append (before after : List Statement) :
    separatedList (before ++ after) = separatedList before ++ separatedList after := by
  induction before with
  | nil => rfl
  | cons s rest ih => rw [List.cons_append, separatedList, separatedList, ih, List.append_assoc]

/-- Commands in a row have nothing inside them. -/
theorem placedList_commands (id next depth : Nat) (place : Place) (commands : List Command) :
    placedList id next depth (commands.map (.command place)) =
      placedRow id next depth (commands.map (.command place)) := by
  induction commands generalizing id with
  | nil => rfl
  | cons c rest ih =>
    rw [List.map_cons, placedList, placedRow, ih]
    rfl

theorem nodeCountOfList_commands (place : Place) (commands : List Command) :
    nodeCountOfList (commands.map (.command place)) = commands.length := by
  induction commands with
  | nil => rfl
  | cons c rest ih =>
    rw [List.map_cons, nodeCountOfList, ih, Statement.nodeCount, List.length_cons, Nat.add_comm]

theorem mem_placedRow_iff {id next depth : Nat} {row : List Statement} {q : Placed} :
    q ∈ placedRow id next depth row ↔ ∃ i, row[i]? = some q.statement ∧ q.id = id + i ∧
      q.depth = depth ∧ q.next = if i + 1 = row.length then next else id + i + 1 := by
  induction row generalizing id with
  | nil => simp [placedRow]
  | cons s rest ih =>
    have hlast : (rest.isEmpty = true) ↔ 0 + 1 = rest.length + 1 := by cases rest <;> simp
    have shift (i : Nat) : id + 1 + i = id + (i + 1) := by omega
    rw [placedRow, List.mem_cons, ih]
    simp only [shift, hlast]
    constructor
    · rintro (rfl | ⟨i, hi, hid, hdepth, hnext⟩)
      · exact ⟨0, rfl, rfl, rfl, rfl⟩
      · exact ⟨i + 1, hi, hid, hdepth, by simpa using hnext⟩
    · rintro ⟨_ | i, hi, hid, hdepth, hnext⟩
      · obtain ⟨statement, id', depth', next'⟩ := q
        obtain rfl : s = statement := Option.some.inj hi
        obtain rfl : id' = id := hid
        obtain rfl : depth' = depth := hdepth
        obtain rfl : next' = if 0 + 1 = rest.length + 1 then next else id' + 1 := hnext
        exact .inl rfl
      · exact .inr ⟨i, hi, hid, hdepth, by simpa using hnext⟩

/-! ## Numbers -/

section Numbers

variable {head : NodeId → NodeId}

mutual

theorem Statement.head_add_nodeCount (id next depth : Nat) :
    ∀ s : Statement, (∀ q ∈ s.placed id next depth, q.HasRoom head) →
      head (id + s.nodeCount) = head id + nodeCountOfList s.separated
  | .command place body => by
    intro h
    rw [Statement.placed, List.forall_mem_singleton, Placed.HasRoom, Statement.separated,
      List.length_map] at h
    rw [Statement.nodeCount, h, Statement.separated, nodeCountOfList_commands]
  | .conditional place condition onTrue none => by
    intro h
    rw [Statement.placed, List.forall_mem_cons] at h
    have hfirst : head (id + 1) = head id + 1 := h.1
    rw [Statement.nodeCount, ← Nat.add_assoc, onTrue.head_add_nodeCount (id + 1) _ _ h.2, hfirst]
    simp only [Statement.separated, nodeCountOfList, Statement.nodeCount, Nat.add_assoc,
      Nat.add_zero]
  | .conditional place condition onTrue (some onFalse) => by
    intro h
    rw [Statement.placed, List.forall_mem_cons, List.forall_mem_append] at h
    have hfirst : head (id + 1) = head id + 1 := h.1
    rw [Statement.nodeCount, ← Nat.add_assoc, ← Nat.add_assoc,
      onFalse.head_add_nodeCount (id + 1 + onTrue.nodeCount) _ _ h.2.2,
      onTrue.head_add_nodeCount (id + 1) _ _ h.2.1, hfirst]
    simp only [Statement.separated, nodeCountOfList, Statement.nodeCount, Nat.add_assoc,
      Nat.add_zero]

theorem Arm.head_add_nodeCount (id next depth : Nat) :
    ∀ a : Arm, (∀ q ∈ a.placed id next depth, q.HasRoom head) →
      head (id + a.nodeCount) = head id + a.separated.nodeCount
  | .line _ => fun _ => rfl
  | .block statements => by
    rw [Arm.placed, Arm.separated, Arm.nodeCount, Arm.nodeCount]
    exact head_add_nodeCountOfList id next depth statements

theorem head_add_nodeCountOfList (id next depth : Nat) :
    ∀ statements : List Statement,
      (∀ q ∈ placedList id next depth statements, q.HasRoom head) →
      head (id + nodeCountOfList statements) = head id + nodeCountOfList (separatedList statements)
  | [] => fun _ => rfl
  | s :: rest => by
    intro h
    rw [placedList, List.forall_mem_append] at h
    rw [nodeCountOfList, ← Nat.add_assoc, head_add_nodeCountOfList _ next depth rest h.2,
      s.head_add_nodeCount _ _ _ h.1, separatedList, nodeCountOfList_append, Nat.add_assoc]

end

mutual

theorem Statement.placedList_separated (id next depth : Nat) :
    ∀ s : Statement, (∀ q ∈ s.placed id next depth, q.HasRoom head) →
      placedList (head id) (head next) depth s.separated =
        (s.placed id next depth).flatMap (Placed.separated head)
  | .command place body => by
    intro _
    rw [Statement.placed, List.flatMap_singleton, Placed.separated, Statement.separated,
      placedList_commands]
  | .conditional place condition onTrue none => by
    intro h
    rw [Statement.placed, List.forall_mem_cons] at h
    have hfirst : head (id + 1) = head id + 1 := h.1
    rw [Statement.placed, List.flatMap_cons,
      ← onTrue.placed_separated (id + 1) next (depth + 1) h.2, hfirst]
    simp [Statement.separated, Placed.separated, placedRow, placedList, Statement.placed]
  | .conditional place condition onTrue (some onFalse) => by
    intro h
    rw [Statement.placed, List.forall_mem_cons, List.forall_mem_append] at h
    have hfirst : head (id + 1) = head id + 1 := h.1
    have hsecond : head (id + 1 + onTrue.nodeCount) = head id + 1 + onTrue.separated.nodeCount := by
      rw [onTrue.head_add_nodeCount (id + 1) _ _ h.2.1, hfirst]
    rw [Statement.placed, List.flatMap_cons, List.flatMap_append,
      ← onTrue.placed_separated (id + 1) next (depth + 1) h.2.1,
      ← onFalse.placed_separated (id + 1 + onTrue.nodeCount) next (depth + 1) h.2.2, hfirst,
      hsecond]
    simp [Statement.separated, Placed.separated, placedRow, placedList, Statement.placed]

theorem Arm.placed_separated (id next depth : Nat) :
    ∀ a : Arm, (∀ q ∈ a.placed id next depth, q.HasRoom head) →
      a.separated.placed (head id) (head next) depth =
        (a.placed id next depth).flatMap (Placed.separated head)
  | .line _ => fun _ => rfl
  | .block statements => by
    rw [Arm.placed, Arm.separated, Arm.placed]
    exact placedList_separatedList id next depth statements

/-- The statements of a list, separated and then numbered, are the numbered ones separated. -/
theorem placedList_separatedList (id next depth : Nat) :
    ∀ statements : List Statement,
      (∀ q ∈ placedList id next depth statements, q.HasRoom head) →
      placedList (head id) (head next) depth (separatedList statements) =
        (placedList id next depth statements).flatMap (Placed.separated head)
  | [] => fun _ => rfl
  | s :: rest => by
    intro h
    rw [placedList, List.forall_mem_append] at h
    have hs : head (id + s.nodeCount) = head id + nodeCountOfList s.separated :=
      s.head_add_nodeCount _ _ _ h.1
    rw [separatedList, placedList_append, isEmpty_separatedList, ← hs,
      placedList_separatedList _ next depth rest h.2, placedList, List.flatMap_append,
      ← s.placedList_separated _ _ depth h.1, apply_ite head]

end

/-- The lines are entered where the first of the separated statements stand. -/
theorem lineEntries_separated (hexit : head Graph.exit = Graph.exit) (id next depth : Nat)
    (lines : List ProgramLine)
    (h : ∀ q ∈ placedList id next depth (lines.flatMap ProgramLine.statements), q.HasRoom head) :
    lineEntries (head id) (lines.map fun l => { l with statements := separatedList l.statements }) =
      (lineEntries id lines).map fun e => (e.1, head e.2) := by
  induction lines generalizing id with
  | nil => rfl
  | cons l rest ih =>
    rw [List.flatMap_cons, placedList_append, List.forall_mem_append] at h
    have later := ih _ h.2
    rw [head_add_nodeCountOfList id _ depth _ h.1] at later
    rw [List.map_cons, lineEntries, lineEntries, later, List.map_cons, isEmpty_separatedList]
    congr 2
    split
    · rcases lineEntries (id + nodeCountOfList l.statements) rest with _ | first
      · exact hexit.symm
      · rfl
    · rfl

end Numbers

/-! ## Programs -/

namespace Program

variable (p : Program)

/-- The number of the first of the statements that the one with number `id` is separated into. -/
def headOf (id : NodeId) : NodeId :=
  id + ((p.placed.take (id - 2)).map fun q => q.statement.separated.length - 1).sum

theorem headOf_entry : p.headOf Graph.entry = Graph.entry := rfl

theorem headOf_exit : p.headOf Graph.exit = Graph.exit := rfl

theorem statements_separateNexts : p.separateNexts.statements = separatedList p.statements := by
  rw [statements, statements, separateNexts, List.flatMap_map]
  induction p.lines with
  | nil => rfl
  | cons l rest ih => rw [List.flatMap_cons, List.flatMap_cons, separatedList_append, ih]

theorem strictMono_headOf : StrictMono p.headOf := by
  refine strictMono_nat_of_lt_succ fun id => ?_
  obtain ⟨later, hlater⟩ : p.placed.take (id - 2) <+: p.placed.take (id + 1 - 2) :=
    List.take_prefix_take_left (by omega)
  rw [headOf, headOf, ← hlater, List.map_append, List.sum_append_nat]
  exact Nat.add_lt_add_of_lt_of_le (Nat.lt_succ_self id) (Nat.le_add_right _ _)

/-- The number `n` is that of one of the statements that the one with number `id` is separated
into. -/
def StandsFor (n id : NodeId) : Prop := p.headOf id ≤ n ∧ n < p.headOf (id + 1)

variable {p} {q : Placed}

theorem StandsFor.unique {n id id' : NodeId} (h : p.StandsFor n id) (h' : p.StandsFor n id') :
    id = id' := by
  have hle : id ≤ id' :=
    Nat.lt_succ_iff.1 (p.strictMono_headOf.lt_iff_lt.1 (Nat.lt_of_le_of_lt h.1 h'.2))
  have hge : id' ≤ id :=
    Nat.lt_succ_iff.1 (p.strictMono_headOf.lt_iff_lt.1 (Nat.lt_of_le_of_lt h'.1 h.2))
  exact Nat.le_antisymm hle hge

theorem standsFor_headOf (id : NodeId) : p.StandsFor (p.headOf id) id :=
  ⟨Nat.le_refl _, p.strictMono_headOf (Nat.lt_succ_self id)⟩

theorem hasRoom_of_mem_placed (hq : q ∈ p.placed) : q.HasRoom p.headOf := by
  obtain ⟨i, hi, rfl⟩ := List.getElem_of_mem hq
  have hpos := p.placed[i].statement.length_separated_pos
  rw [Placed.HasRoom, id_getElem_placed p hi, headOf, headOf, Nat.add_sub_cancel,
    show i + 2 + 1 - 2 = i + 1 by omega, List.take_succ_eq_append_getElem hi]
  simp only [List.map_append, List.sum_append_nat, List.map_cons, List.map_nil, List.sum_cons,
    List.sum_nil]
  unfold NodeId
  omega

theorem standsFor_add_iff (hq : q ∈ p.placed) {i : Nat} :
    p.StandsFor (p.headOf q.id + i) q.id ↔ i < q.statement.separated.length := by
  have hroom : p.headOf (q.id + 1) = p.headOf q.id + q.statement.separated.length :=
    hasRoom_of_mem_placed hq
  rw [StandsFor, hroom]
  exact ⟨fun h => Nat.lt_of_add_lt_add_left h.2,
    fun h => ⟨Nat.le_add_right _ _, Nat.add_lt_add_left h _⟩⟩

theorem headOf_succ (hq : q ∈ p.placed)
    (hne : ∀ counters, q.statement.command? ≠ some (.next counters)) :
    p.headOf (q.id + 1) = p.headOf q.id + 1 := by
  obtain ⟨s', hs', -⟩ := Statement.exists_separated_eq hne
  have hroom : p.headOf (q.id + 1) = p.headOf q.id + q.statement.separated.length :=
    hasRoom_of_mem_placed hq
  rwa [hs'] at hroom

/-- Only a `NEXT` is separated into several statements. -/
theorem StandsFor.eq_headOf {n : NodeId} (hq : q ∈ p.placed)
    (hne : ∀ counters, q.statement.command? ≠ some (.next counters)) (h : p.StandsFor n q.id) :
    n = p.headOf q.id :=
  Nat.le_antisymm (Nat.lt_succ_iff.1 (Nat.lt_of_lt_of_eq h.2 (headOf_succ hq hne))) h.1

variable (p) in
/-- The number `n` is that of one of the statements that the one with number `id` is separated into,
but not of the first. -/
def InnerNode (id n : NodeId) : Prop := p.StandsFor n id ∧ n ≠ p.headOf id

theorem not_innerNode (hq : q ∈ p.placed)
    (hne : ∀ counters, q.statement.command? ≠ some (.next counters)) {n : NodeId} :
    ¬ p.InnerNode q.id n := fun h => h.2 (h.1.eq_headOf hq hne)

theorem exists_next_of_innerNode (hq : q ∈ p.placed) {n : NodeId} (hn : p.InnerNode q.id n) :
    ∃ counters, q.statement.command? = some (.next counters) := by
  by_contra! hne
  exact not_innerNode hq hne hn

variable (p)

/-- The numbered statements are separated one by one. -/
theorem placed_separateNexts :
    p.separateNexts.placed = p.placed.flatMap (Placed.separated p.headOf) := by
  rw [placed, statements_separateNexts]
  exact placedList_separatedList 2 Graph.exit 0 p.statements fun q => hasRoom_of_mem_placed

theorem mem_placed_separateNexts_iff {q' : Placed} :
    q' ∈ p.separateNexts.placed ↔ ∃ q ∈ p.placed, ∃ i,
      q.statement.separated[i]? = some q'.statement ∧ q'.id = p.headOf q.id + i ∧
        q'.depth = q.depth ∧ q'.next =
          if i + 1 = q.statement.separated.length then p.headOf q.next
          else p.headOf q.id + i + 1 := by
  rw [placed_separateNexts, List.mem_flatMap]
  simp only [Placed.separated, mem_placedRow_iff]

variable {p}

theorem exists_standsAlone (hq : q ∈ p.placed)
    (h : ∀ counters, q.statement.command? ≠ some (.next counters)) :
    ∃ q' ∈ p.separateNexts.placed, q'.StandsAlone p.headOf q := by
  obtain ⟨s', hs', hc⟩ := Statement.exists_separated_eq h
  refine ⟨⟨s', p.headOf q.id, q.depth, p.headOf q.next⟩, ?_, ⟨hc, rfl, rfl⟩, hs'⟩
  exact (mem_placed_separateNexts_iff p).2 ⟨q, hq, 0, by rw [hs']; rfl, rfl, rfl, by rw [hs']; rfl⟩

theorem exists_standsAlone_of_mem {q' : Placed} (hq' : q' ∈ p.separateNexts.placed)
    (h : ∀ counters, q'.statement.command? ≠ some (.next counters)) :
    ∃ q ∈ p.placed, q'.StandsAlone p.headOf q := by
  obtain ⟨q, hq, i, hi, hid, -, hnext⟩ := (mem_placed_separateNexts_iff p).1 hq'
  have hne : ∀ counters, q.statement.command? ≠ some (.next counters) := fun counters hc =>
    (Statement.command?_of_mem_separated hc (List.mem_of_getElem? hi)).elim h
  obtain ⟨s', hs', hc⟩ := Statement.exists_separated_eq hne
  rw [hs'] at hi hnext
  obtain ⟨rfl, rfl⟩ : i = 0 ∧ s' = q'.statement := by
    cases i with
    | zero => exact ⟨rfl, Option.some.inj hi⟩
    | succ i => cases hi
  exact ⟨q, hq, ⟨hc, hid, hnext⟩, hs'⟩

variable (p)

theorem entryOf_separateNexts (line : Nat) :
    p.separateNexts.edgeContext.entryOf line = p.headOf (p.edgeContext.entryOf line) := by
  have entries : p.separateNexts.edgeContext.entries =
      p.edgeContext.entries.map fun e => (e.1, p.headOf e.2) :=
    lineEntries_separated p.headOf_exit 2 Graph.exit 0 p.lines fun q => hasRoom_of_mem_placed
  exact EdgeContext.entryOf_of_entries p.headOf_exit line entries

end Program

/-! ## The symbol table -/

theorem occurrencesOfList_commands (depth : Nat) (place : Place) (commands : List Command) :
    occurrencesOfList depth (commands.map (.command place)) =
      (commands.map (.command place)).map fun s => (s, depth) := by
  induction commands with
  | nil => rfl
  | cons c rest ih =>
    rw [List.map_cons, occurrencesOfList, ih]
    rfl

/-- What stands for a statement under some arms. -/
def separatedOccurrence (occurrence : Statement × Nat) : List (Statement × Nat) :=
  occurrence.1.separated.map fun s => (s, occurrence.2)

mutual

theorem Statement.occurrencesOfList_separated (depth : Nat) :
    ∀ s : Statement,
      occurrencesOfList depth s.separated = (s.occurrences depth).flatMap separatedOccurrence
  | .command place body => by
    rw [Statement.occurrences, List.flatMap_singleton, separatedOccurrence, Statement.separated,
      occurrencesOfList_commands]
  | .conditional place condition onTrue none => by
    rw [Statement.occurrences, List.flatMap_cons, ← onTrue.occurrences_separated (depth + 1)]
    simp [Statement.separated, separatedOccurrence, occurrencesOfList, Statement.occurrences]
  | .conditional place condition onTrue (some onFalse) => by
    rw [Statement.occurrences, List.flatMap_cons, List.flatMap_append,
      ← onTrue.occurrences_separated (depth + 1), ← onFalse.occurrences_separated (depth + 1)]
    simp [Statement.separated, separatedOccurrence, occurrencesOfList, Statement.occurrences]

theorem Arm.occurrences_separated (depth : Nat) :
    ∀ a : Arm, a.separated.occurrences depth = (a.occurrences depth).flatMap separatedOccurrence
  | .line _ => rfl
  | .block statements => by
    rw [Arm.occurrences, Arm.separated, Arm.occurrences]
    exact occurrencesOfList_separatedList depth statements

theorem occurrencesOfList_separatedList (depth : Nat) :
    ∀ statements : List Statement,
      occurrencesOfList depth (separatedList statements) =
        (occurrencesOfList depth statements).flatMap separatedOccurrence
  | [] => rfl
  | s :: rest => by
    rw [separatedList, occurrencesOfList_append, s.occurrencesOfList_separated,
      occurrencesOfList_separatedList depth rest, occurrencesOfList, List.flatMap_append]

end

/-- A `NEXT` has no part in the declarations of a program. -/
theorem SymbolSweep.foldl_directive_separated (s : SymbolSweep) (occurrence : Statement × Nat) :
    (separatedOccurrence occurrence).foldl (fun s o => s.directive o.1) s =
      s.directive occurrence.1 := by
  obtain ⟨⟨place, body⟩ | ⟨place, condition, onTrue, _ | onFalse⟩, depth⟩ := occurrence
  · rw [separatedOccurrence, Statement.separated]
    unfold Command.separated
    split
    · rw [List.foldl_map, List.foldl_map, List.foldl_map]
      exact List.foldl_fixed _
    · rfl
  · rfl
  · rfl

/-- A list of counters is forgotten one counter after the other. -/
theorem SymbolSweep.foldl_statement_separated (s : SymbolSweep) (occurrence : Statement × Nat) :
    (separatedOccurrence occurrence).foldl SymbolSweep.statement s = s.statement occurrence := by
  obtain ⟨⟨place, body⟩ | ⟨place, condition, onTrue, _ | onFalse⟩, depth⟩ := occurrence
  · rw [separatedOccurrence, Statement.separated]
    unfold Command.separated
    split
    · rw [List.foldl_map, List.foldl_map, List.foldl_map]
      rfl
    · rfl
  · rfl
  · rfl

theorem SymbolTable.build_separateNexts (p : Program) :
    SymbolTable.build p.separateNexts = SymbolTable.build p := by
  have occurrences : p.separateNexts.occurrences = p.occurrences.flatMap separatedOccurrence := by
    rw [Program.occurrences, p.statements_separateNexts]
    exact occurrencesOfList_separatedList 0 p.statements
  rw [SymbolTable.build, SymbolTable.build, Program.allStatements, Program.allStatements,
    occurrences, List.foldl_map, List.foldl_map, List.foldl_flatMap, List.foldl_flatMap]
  simp only [SymbolSweep.foldl_directive_separated, SymbolSweep.foldl_statement_separated]

end LineBasic
