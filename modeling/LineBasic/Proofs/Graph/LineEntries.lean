import LineBasic.Proofs.Grammar.Accepted
import LineBasic.Proofs.Graph.WellFormed

/-!
# Where lines are entered

In a program that is read, the numbers of the lines ascend and every statement bears the number of
its line (`Program.IsNumbered`). So a jump that reaches a statement has reached the entry of the
line that this statement is on, which need not be the line that was asked for
(`Program.IsNumbered.lineEntry?_of_entryOf`).
-/

namespace LineBasic

/-- The numbers of the lines ascend, and the statements bear the numbers of their lines. -/
structure Program.IsNumbered (p : Program) : Prop where
  ascending : p.lines.Pairwise fun a b => a.number < b.number
  line_eq : ∀ l ∈ p.lines, Grammar.Throughout (fun s => s.line = l.number) l.statements

theorem Grammar.readClosed_true : ReadClosed fun _ => True :=
  ⟨fun _ _ _ _ => trivial, fun _ _ _ _ => trivial, fun _ _ _ _ => ⟨trivial, fun _ _ _ => trivial⟩,
    fun _ _ _ _ _ _ => trivial, fun _ _ _ => trivial, fun _ _ _ => trivial,
    fun _ _ _ _ _ => trivial⟩

theorem Program.isNumbered_of_parse {source : String} {p : Program} (h : parse source = .ok p) :
    p.IsNumbered where
  ascending := (lines_of_parse h).1
  line_eq := throughout_of_parse (Q := fun number s => s.line = number) h Grammar.readClosed_true
    fun _ => ⟨fun _ _ hplace _ => hplace, fun _ _ _ _ hplace _ => hplace⟩

/-! ## Entries -/

/-- The line has its first statement at the node. -/
def BeginsAt (lines : List ProgramLine) (first : Nat) (l : ProgramLine) (node : NodeId) : Prop :=
  ∃ before after, lines = before ++ l :: after ∧ l.statements ≠ [] ∧
    node = first + nodeCountOfList (before.flatMap ProgramLine.statements)

section Entries

variable {lines : List ProgramLine} {first : Nat} {l : ProgramLine} {node : NodeId}

theorem BeginsAt.of_rest {l' : ProgramLine}
    (h : BeginsAt lines (first + nodeCountOfList l'.statements) l node) :
    BeginsAt (l' :: lines) first l node := by
  obtain ⟨before, after, rfl, hne, rfl⟩ := h
  refine ⟨l' :: before, after, rfl, hne, ?_⟩
  rw [List.flatMap_cons, nodeCountOfList_append, Nat.add_assoc]

/-- A line is entered at the first statement of its own or, if it is empty, of a later line. -/
theorem exists_beginsAt_of_mem_lineEntries {number : Nat}
    (h : (number, node) ∈ lineEntries first lines) (hne : node ≠ Graph.exit) :
    ∃ l, BeginsAt lines first l node := by
  induction lines generalizing first number with
  | nil => cases h
  | cons l rest ih =>
    rw [lineEntries] at h
    rcases List.mem_cons.1 h with heq | h
    · obtain ⟨rfl, hnode⟩ := Prod.mk.inj heq
      split at hnode
      next hempty =>
        -- an empty line is entered where the next one is
        rcases hhead : (lineEntries (first + nodeCountOfList l.statements) rest).head? with
          _ | ⟨number, entry⟩
        · rw [hhead] at hnode
          exact absurd hnode hne
        · rw [hhead] at hnode
          obtain rfl : node = entry := hnode
          obtain ⟨l', hl'⟩ := ih (List.mem_of_head? hhead)
          exact ⟨l', hl'.of_rest⟩
      next hempty =>
        exact ⟨l, [], rest, rfl, mt List.isEmpty_iff.2 hempty, hnode⟩
    · obtain ⟨l', hl'⟩ := ih h
      exact ⟨l', hl'.of_rest⟩

theorem BeginsAt.mem_lineEntries (h : BeginsAt lines first l node) :
    (l.number, node) ∈ lineEntries first lines := by
  obtain ⟨before, after, rfl, hne, rfl⟩ := h
  induction before generalizing first with
  | nil =>
    rw [List.nil_append, lineEntries, if_neg (mt List.isEmpty_iff.1 hne)]
    exact List.mem_cons_self
  | cons l' before ih =>
    rw [List.cons_append, lineEntries, List.flatMap_cons, nodeCountOfList_append, ← Nat.add_assoc]
    exact List.mem_cons_of_mem _ ih

/-- The first node of a statement is its own. -/
theorem Statement.mem_placed (id next depth : Nat) (s : Statement) :
    ⟨s, id, depth, next⟩ ∈ s.placed id next depth := by
  rcases s with _ | ⟨_, _, _, _ | _⟩ <;> exact List.mem_cons_self

theorem BeginsAt.exists_placed (h : BeginsAt lines first l node) (next depth : Nat) :
    l ∈ lines ∧ ∃ q ∈ placedList first next depth (lines.flatMap ProgramLine.statements),
      q.id = node ∧ q.statement ∈ l.statements := by
  obtain ⟨before, after, rfl, hne, rfl⟩ := h
  refine ⟨List.mem_append_right _ List.mem_cons_self, ?_⟩
  obtain ⟨s, rest, hs⟩ := List.exists_cons_of_ne_nil hne
  rw [List.flatMap_append, List.flatMap_cons, placedList_append, hs, List.cons_append, placedList]
  refine ⟨_, List.mem_append_right _ (List.mem_append_left _ (s.mem_placed _ _ _)), rfl, ?_⟩
  exact List.mem_cons_self

theorem map_fst_lineEntries (first : Nat) (lines : List ProgramLine) :
    (lineEntries first lines).map Prod.fst = lines.map ProgramLine.number := by
  induction lines generalizing first with
  | nil => rfl
  | cons l rest ih => rw [lineEntries, List.map_cons, ih, List.map_cons]

theorem mem_of_find?_entry {entries : List (Nat × NodeId)} {number : Nat} {e : Nat × NodeId}
    (h : (entries.find? fun e => e.1 == number) = some e) : (number, e.2) ∈ entries := by
  have hnumber : e.1 = number :=
    eq_of_beq (List.find?_some (p := fun e : Nat × NodeId => e.1 == number) h)
  exact hnumber ▸ List.mem_of_find?_eq_some h

end Entries

namespace Program

variable {p : Program}

/-- If a line is entered at a statement, the line of that statement is entered there. -/
theorem IsNumbered.lineEntry?_of_entryOf (h : p.IsNumbered) {line : Nat} {q : Placed}
    (hq : q ∈ p.placed) (hentry : p.edgeContext.entryOf line = q.id) :
    Graph.lineEntry? (Graph.build p) ((Graph.build p).lineOf q.id) = some q.id := by
  have hne : q.id ≠ Graph.exit := Nat.ne_of_gt (two_le_id hq)
  have entered : (line, q.id) ∈ lineEntries 2 p.lines := by
    rw [EdgeContext.entryOf] at hentry
    cases hfound : p.edgeContext.entries.find? fun e => e.1 == line with
    | none =>
      rw [hfound] at hentry
      exact absurd hentry.symm hne
    | some e =>
      rw [hfound] at hentry
      have hnode : e.2 = q.id := hentry
      exact hnode ▸ mem_of_find?_entry hfound
  obtain ⟨l, hbegins⟩ := exists_beginsAt_of_mem_lineEntries entered hne
  obtain ⟨hl, q', hq', hid, hstatement⟩ := hbegins.exists_placed Graph.exit 0
  obtain rfl : q' = q := eq_of_id_eq hq' hq hid
  have hline : (Graph.build p).lineOf q'.id = l.number := by
    have first : (q'.statement, 0) ∈ q'.statement.occurrences 0 := by
      rcases q'.statement with _ | ⟨_, _, _, _ | _⟩ <;> exact List.mem_cons_self
    rw [Graph.lineOf, Graph.node?_build_of_mem_placed hq]
    exact Grammar.throughout_iff.1 (h.line_eq l hl) _ hstatement 0 _ first
  have nodup : ((lineEntries 2 p.lines).map Prod.fst).Nodup := by
    rw [map_fst_lineEntries, List.Nodup, List.pairwise_map]
    exact h.ascending.imp Nat.ne_of_lt
  rw [hline, Graph.lineEntry?]
  change ((lineEntries 2 p.lines).find? fun e => e.1 == l.number).map Prod.snd = _
  cases hfound : (lineEntries 2 p.lines).find? fun e => e.1 == l.number with
  | none =>
    have hnone := List.find?_eq_none.1 hfound _ hbegins.mem_lineEntries
    simp at hnone
  | some e =>
    have heq := List.inj_on_of_nodup_map nodup (mem_of_find?_entry hfound)
      hbegins.mem_lineEntries rfl
    exact congrArg some (Prod.mk.inj heq).2

end Program
end LineBasic
