import Mathlib.Data.List.Nodup
import LineBasic.Flow.Build

/-!
# The numbers of statements

The statements of a program are numbered without gaps from 2 on, in the order of the text
(`map_id_placedList`). All numbers that the graph refers to, where control goes next and where a
line is entered, belong to a statement or to the exit (`Program.isTarget_next`,
`Program.isTarget_entryOf`).
-/

namespace LineBasic

/-! ## Numbers in a list of statements -/

mutual

theorem Statement.map_id_placed (id next depth : Nat) :
    ∀ s : Statement, (s.placed id next depth).map Placed.id = List.range' id s.nodeCount
  | .command .. => by simp [Statement.placed, Statement.nodeCount]
  | .conditional _ _ onTrue none => by
    simp only [Statement.placed, Statement.nodeCount, List.map_cons, onTrue.map_id_placed,
      Nat.add_comm 1, List.range'_succ]
  | .conditional _ _ onTrue (some onFalse) => by
    simp only [Statement.placed, Statement.nodeCount, List.map_cons, List.map_append,
      onTrue.map_id_placed, onFalse.map_id_placed, List.range'_append_1]
    rw [Nat.add_assoc 1, Nat.add_comm 1, List.range'_succ]

theorem Arm.map_id_placed (id next depth : Nat) :
    ∀ a : Arm, (a.placed id next depth).map Placed.id = List.range' id a.nodeCount
  | .line _ => by simp [Arm.placed, Arm.nodeCount]
  | .block statements => by
    rw [Arm.placed, Arm.nodeCount]
    exact map_id_placedList id next depth statements

theorem map_id_placedList (id next depth : Nat) :
    ∀ statements : List Statement,
      (placedList id next depth statements).map Placed.id =
        List.range' id (nodeCountOfList statements)
  | [] => by simp [placedList, nodeCountOfList]
  | s :: rest => by
    rw [placedList, nodeCountOfList, List.map_append, s.map_id_placed,
      map_id_placedList (id + s.nodeCount) next depth rest, List.range'_append_1]

end

mutual

theorem Statement.occurrences_eq (id next depth : Nat) :
    ∀ s : Statement,
      s.occurrences depth = (s.placed id next depth).map fun q => (q.statement, q.depth)
  | .command .. => rfl
  | .conditional _ _ onTrue none => by
    rw [Statement.occurrences, Statement.placed, List.map_cons,
      onTrue.occurrences_eq (id + 1) next (depth + 1)]
  | .conditional _ _ onTrue (some onFalse) => by
    rw [Statement.occurrences, Statement.placed, List.map_cons, List.map_append,
      onTrue.occurrences_eq (id + 1) next (depth + 1),
      onFalse.occurrences_eq (id + 1 + onTrue.nodeCount) next (depth + 1)]

theorem Arm.occurrences_eq (id next depth : Nat) :
    ∀ a : Arm, a.occurrences depth = (a.placed id next depth).map fun q => (q.statement, q.depth)
  | .line _ => rfl
  | .block statements => by
    rw [Arm.occurrences, Arm.placed]
    exact occurrencesOfList_eq id next depth statements

/-- The statements in the order of the text are those that are numbered. -/
theorem occurrencesOfList_eq (id next depth : Nat) :
    ∀ statements : List Statement, occurrencesOfList depth statements =
      (placedList id next depth statements).map fun q => (q.statement, q.depth)
  | [] => rfl
  | s :: rest => by
    rw [occurrencesOfList, placedList, List.map_append,
      s.occurrences_eq id (if rest.isEmpty then next else id + s.nodeCount) depth,
      occurrencesOfList_eq (id + s.nodeCount) next depth rest]

end

theorem Statement.nodeCount_pos (s : Statement) : 0 < s.nodeCount := by
  rcases s with _ | ⟨_, _, _, _ | _⟩ <;> simp only [Statement.nodeCount] <;> omega

theorem nodeCountOfList_append (before after : List Statement) :
    nodeCountOfList (before ++ after) = nodeCountOfList before + nodeCountOfList after := by
  induction before with
  | nil => simp [nodeCountOfList]
  | cons s rest ih => rw [List.cons_append, nodeCountOfList, nodeCountOfList, ih, Nat.add_assoc]

theorem placedList_append (id next depth : Nat) (before after : List Statement) :
    placedList id next depth (before ++ after) =
      placedList id (if after.isEmpty then next else id + nodeCountOfList before) depth before ++
        placedList (id + nodeCountOfList before) next depth after := by
  induction before generalizing id with
  | nil => simp [placedList, nodeCountOfList]
  | cons s rest ih =>
    rw [List.cons_append, placedList, placedList, ih, nodeCountOfList, ← Nat.add_assoc,
      List.append_assoc]
    congr 2
    cases rest <;> simp [nodeCountOfList]

/-- The statement and those inside it have numbers among the `count` numbers from `first` on, and
control goes from it to one of these after the first, or to `next`. -/
structure Placed.Within (q : Placed) (first count next : Nat) : Prop where
  first_le : first ≤ q.id
  end_le : q.id + q.statement.nodeCount ≤ first + count
  next_eq : q.next = next ∨ first < q.next ∧ q.next < first + count

theorem Placed.Within.mono {q : Placed} {first count next first' count' next' : Nat}
    (h : q.Within first count next) (hf : first' ≤ first)
    (he : first + count ≤ first' + count')
    (hn : next = next' ∨ first' < next ∧ next < first' + count') :
    q.Within first' count' next' where
  first_le := Nat.le_trans hf h.first_le
  end_le := Nat.le_trans h.end_le he
  next_eq := by
    rcases h.next_eq with hq | hq
    · rwa [hq]
    · exact .inr ⟨Nat.lt_of_le_of_lt hf hq.1, Nat.lt_of_lt_of_le hq.2 he⟩

mutual

theorem Statement.within_of_mem_placed (id next depth : Nat) :
    ∀ s : Statement, ∀ q ∈ s.placed id next depth, q.Within id s.nodeCount next
  | .command place body => by
    intro q hq
    rw [Statement.placed, List.mem_singleton] at hq
    subst hq
    exact ⟨Nat.le_refl _, Nat.le_refl _, .inl rfl⟩
  | .conditional place condition onTrue none => by
    intro q hq
    rw [Statement.placed, List.mem_cons] at hq
    rcases hq with rfl | hq
    · exact ⟨Nat.le_refl _, Nat.le_refl _, .inl rfl⟩
    · rw [Statement.nodeCount]
      exact (onTrue.within_of_mem_placed _ _ _ q hq).mono (by omega) (by omega) (.inl rfl)
  | .conditional place condition onTrue (some onFalse) => by
    intro q hq
    rw [Statement.placed, List.mem_cons, List.mem_append] at hq
    rcases hq with rfl | hq | hq
    · exact ⟨Nat.le_refl _, Nat.le_refl _, .inl rfl⟩
    · rw [Statement.nodeCount]
      exact (onTrue.within_of_mem_placed _ _ _ q hq).mono (by omega) (by omega) (.inl rfl)
    · rw [Statement.nodeCount]
      exact (onFalse.within_of_mem_placed _ _ _ q hq).mono (by omega) (by omega) (.inl rfl)

theorem Arm.within_of_mem_placed (id next depth : Nat) :
    ∀ a : Arm, ∀ q ∈ a.placed id next depth, q.Within id a.nodeCount next
  | .line _ => by simp [Arm.placed]
  | .block statements => by
    rw [Arm.placed, Arm.nodeCount]
    exact within_of_mem_placedList id next depth statements

theorem within_of_mem_placedList (id next depth : Nat) :
    ∀ statements : List Statement, ∀ q ∈ placedList id next depth statements,
      q.Within id (nodeCountOfList statements) next
  | [] => by simp [placedList]
  | s :: rest => by
    intro q hq
    have hs := s.nodeCount_pos
    rw [placedList, List.mem_append] at hq
    rw [nodeCountOfList]
    rcases hq with hq | hq
    · refine (s.within_of_mem_placed _ _ _ q hq).mono (Nat.le_refl _) (by omega) ?_
      cases rest with
      | nil => exact .inl rfl
      | cons t rest =>
        have ht := t.nodeCount_pos
        simp only [List.isEmpty_cons, Bool.false_eq_true, if_false, nodeCountOfList]
        exact .inr ⟨by omega, by omega⟩
    · exact (within_of_mem_placedList _ next depth rest q hq).mono (by omega) (by omega) (.inl rfl)

end

/-! ## Numbers in a program -/

theorem lineEntries_eq_exit_or (id : NodeId) (lines : List ProgramLine) :
    ∀ entry ∈ lineEntries id lines, entry.2 = Graph.exit ∨
      id ≤ entry.2 ∧ entry.2 < id + nodeCountOfList (lines.flatMap ProgramLine.statements) := by
  induction lines generalizing id with
  | nil => simp [lineEntries]
  | cons l rest ih =>
    have later := ih (id + nodeCountOfList l.statements)
    rw [List.flatMap_cons, nodeCountOfList_append]
    intro entry hentry
    rw [lineEntries, List.mem_cons] at hentry
    rcases hentry with rfl | hentry
    · cases hl : l.statements with
      | nil =>
        rw [hl] at later
        rcases hh : (lineEntries (id + nodeCountOfList []) rest).head? with _ | first
        · exact .inl (by simp)
        · have := later first (List.mem_of_head? hh)
          simpa [hh, nodeCountOfList] using this
      | cons s statements =>
        have hs := s.nodeCount_pos
        refine .inr ⟨by simp, ?_⟩
        simp only [List.isEmpty_cons, Bool.false_eq_true, if_false, nodeCountOfList]
        unfold NodeId at *
        omega
    · unfold NodeId at *
      rcases later entry hentry with h | h
      · exact .inl h
      · exact .inr ⟨by omega, by omega⟩

namespace Program

variable (p : Program)

/-- The number of nodes of the graph: those of the statements, the entry and the exit. -/
def nodeCount : Nat := 2 + nodeCountOfList p.statements

theorem map_id_placed : p.placed.map Placed.id = List.range' 2 (nodeCountOfList p.statements) :=
  map_id_placedList 2 Graph.exit 0 p.statements

theorem length_placed : p.placed.length = nodeCountOfList p.statements := by
  rw [← List.length_map Placed.id, map_id_placed, List.length_range']

theorem id_getElem_placed {i : Nat} (h : i < p.placed.length) : p.placed[i].id = i + 2 := by
  have h' : (p.placed.map Placed.id)[i]? = some p.placed[i].id := by simp [h]
  rw [map_id_placed, List.getElem?_range' (by rwa [length_placed] at h)] at h'
  simpa [Nat.add_comm] using h'.symm

/-- Every number from 2 on within the graph is that of a statement. -/
theorem exists_mem_placed {id : NodeId} (h : 2 ≤ id) (hlt : id < p.nodeCount) :
    ∃ q ∈ p.placed, q.id = id := by
  have hid : id ∈ p.placed.map Placed.id := by
    rw [map_id_placed, List.mem_range'_1]
    exact ⟨h, hlt⟩
  obtain ⟨q, hq, hid⟩ := List.mem_map.1 hid
  exact ⟨q, hq, hid⟩

variable {p} {q q' : Placed}

theorem eq_of_id_eq (hq : q ∈ p.placed) (hq' : q' ∈ p.placed) (h : q.id = q'.id) : q = q' := by
  have nodup : (p.placed.map Placed.id).Nodup := p.map_id_placed ▸ List.nodup_range'
  exact List.inj_on_of_nodup_map nodup hq hq' h

theorem within_of_mem_placed (hq : q ∈ p.placed) :
    q.Within 2 (nodeCountOfList p.statements) Graph.exit :=
  within_of_mem_placedList 2 Graph.exit 0 p.statements q hq

theorem two_le_id (hq : q ∈ p.placed) : 2 ≤ q.id := (within_of_mem_placed hq).first_le

theorem id_lt_nodeCount (hq : q ∈ p.placed) : q.id < p.nodeCount :=
  calc
    q.id < q.id + q.statement.nodeCount := Nat.lt_add_of_pos_right q.statement.nodeCount_pos
    _ ≤ p.nodeCount := (within_of_mem_placed hq).end_le

/-- The number is that of a node other than the entry. -/
def IsTarget (p : Program) (id : NodeId) : Prop := Graph.entry < id ∧ id < p.nodeCount

theorem isTarget_exit : p.IsTarget Graph.exit :=
  ⟨Nat.one_pos, Nat.lt_add_right _ Nat.one_lt_two⟩

theorem isTarget_of_two_le {id : NodeId} (h : 2 ≤ id)
    (hlt : id < 2 + nodeCountOfList p.statements) : p.IsTarget id :=
  ⟨Nat.lt_of_lt_of_le Nat.two_pos h, hlt⟩

theorem isTarget_id (hq : q ∈ p.placed) : p.IsTarget q.id :=
  isTarget_of_two_le (two_le_id hq) (id_lt_nodeCount hq)

theorem isTarget_next (hq : q ∈ p.placed) : p.IsTarget q.next := by
  rcases (within_of_mem_placed hq).next_eq with h | h
  · rw [h]
    exact isTarget_exit
  · exact isTarget_of_two_le (Nat.le_of_lt h.1) h.2

theorem isTarget_entryOf (line : Nat) : p.IsTarget (p.edgeContext.entryOf line) := by
  rw [EdgeContext.entryOf]
  rcases h : p.edgeContext.entries.find? fun e => e.1 == line with _ | e
  · simpa [h] using isTarget_exit
  · rcases lineEntries_eq_exit_or 2 p.lines e (List.mem_of_find?_eq_some h) with he | he
    · simpa [h, he] using isTarget_exit
    · simpa [h] using isTarget_of_two_le he.1 he.2

end Program
end LineBasic
