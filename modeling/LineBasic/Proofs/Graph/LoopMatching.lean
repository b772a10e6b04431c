import Mathlib.Data.List.TakeDrop
import LineBasic.Flow.LoopMatching

/-!
# Matched loops

Whatever the nesting of the loops, a matched `FOR` loop goes from a `FOR` to a `NEXT` for its
counter and a matched `WHILE` loop from a `WHILE` to a `WEND` (`LoopMatching.joins_ofStatements`).
-/

namespace LineBasic

/-- One of the numbered statements has this number and a command with the property. -/
def CommandAt (statements : List (NodeId × Statement)) (id : NodeId) (holds : Command → Prop) :
    Prop :=
  ∃ s c, (id, s) ∈ statements ∧ s.command? = some c ∧ holds c

namespace Command

/-- The command is a `FOR` with this counter. -/
def IsFor (counter : String) (c : Command) : Prop :=
  ∃ name start stop step, c = forLoop name start stop step ∧ name.key = counter

/-- The command is a `NEXT` that names this counter or none. -/
def IsNext (counter : String) (c : Command) : Prop :=
  ∃ counters, c = next counters ∧ (counters = [] ∨ counter ∈ counters.map Name.key)

def IsWhile (c : Command) : Prop := ∃ condition, c = whileLoop condition

end Command

/-- The loop was opened by a statement of its kind. -/
def OpenLoop.OpenedAt (statements : List (NodeId × Statement)) : OpenLoop → Prop
  | forLoop node counter => CommandAt statements node (Command.IsFor counter)
  | whileLoop node => CommandAt statements node Command.IsWhile

namespace LoopMatching

variable {statements : List (NodeId × Statement)} {m : LoopMatching}

/-- All loops, open or closed, join statements of the right kinds. -/
structure Joins (statements : List (NodeId × Statement)) (m : LoopMatching) : Prop where
  opened : ∀ o ∈ m.opened, o.OpenedAt statements
  forLoops : ∀ l ∈ m.forLoops, CommandAt statements l.forNode (Command.IsFor l.counter) ∧
    CommandAt statements l.nextNode (Command.IsNext l.counter)
  whileLoops : ∀ l ∈ m.whileLoops, CommandAt statements l.whileNode Command.IsWhile ∧
    CommandAt statements l.wendNode (· = .wend)

theorem joins_empty : Joins statements empty := ⟨nofun, nofun, nofun⟩

theorem Joins.report (h : Joins statements m) (issue : StructureIssue) :
    Joins statements (m.report issue) :=
  ⟨h.opened, h.forLoops, h.whileLoops⟩

theorem Joins.push (h : Joins statements m) {o : OpenLoop} (ho : o.OpenedAt statements) :
    Joins statements { m with opened := o :: m.opened } where
  opened := by
    intro o' ho'
    rcases List.mem_cons.1 ho' with rfl | ho'
    · exact ho
    · exact h.opened _ ho'
  forLoops := h.forLoops
  whileLoops := h.whileLoops

theorem Joins.close (h : Joins statements m) {id node : NodeId} {counter : String}
    {outer : List OpenLoop} (hnext : CommandAt statements id (Command.IsNext counter))
    (hopen : ∀ o ∈ .forLoop node counter :: outer, o ∈ m.opened) :
    Joins statements (m.close id node counter outer) where
  opened o ho := h.opened o (hopen o (List.mem_cons_of_mem _ ho))
  forLoops := by
    intro l hl
    rcases List.mem_append.1 hl with hl | hl
    · exact h.forLoops l hl
    · rw [List.mem_singleton] at hl
      subst hl
      exact ⟨h.opened _ (hopen _ List.mem_cons_self), hnext⟩
  whileLoops := h.whileLoops

theorem Joins.wend (h : Joins statements m) {id : NodeId}
    (hwend : CommandAt statements id (· = .wend)) : Joins statements (m.wend id) := by
  rw [LoopMatching.wend]
  split
  next node outer ho =>
    have hwhile : CommandAt statements node Command.IsWhile :=
      h.opened (.whileLoop node) (ho ▸ List.mem_cons_self)
    refine ⟨fun o h' => h.opened o (ho ▸ List.mem_cons_of_mem _ h'), h.forLoops, ?_⟩
    intro l hl
    rcases List.mem_append.1 hl with hl | hl
    · exact h.whileLoops l hl
    · rw [List.mem_singleton] at hl
      subst hl
      exact ⟨hwhile, hwend⟩
  next => exact h.report _

theorem Joins.closeInnermost (h : Joins statements m) {id : NodeId}
    (hnext : ∀ counter, CommandAt statements id (Command.IsNext counter)) :
    Joins statements (m.closeInnermost id) := by
  rw [LoopMatching.closeInnermost]
  split
  next node counter outer ho => exact h.close (hnext counter) (fun o h' => ho ▸ h')
  next => exact h.report _

/-- A `NEXT` for a counter closes the innermost loop, or it is an issue. In that case it may still
close a loop further out. -/
theorem closeNamed_cases (m : LoopMatching) (id : NodeId) (counter : String) :
    (∃ node outer, m.opened = .forLoop node counter :: outer ∧
      m.closeNamed id counter = (m.close id node counter outer, true)) ∨
    (∀ node outer, m.opened ≠ .forLoop node counter :: outer) ∧ ∃ issue,
      m.closeNamed id counter = (m.report issue, false) ∨
      ∃ node outer, .forLoop node counter :: outer <:+ m.opened ∧
        m.closeNamed id counter = ((m.report issue).close id node counter outer, true) := by
  have hparts := List.takeWhile_append_dropWhile (p := fun o => !OpenLoop.counts counter o)
    (l := m.opened)
  -- the first loop that is not passed over is one with this counter
  have hfirst {node : NodeId} {c : String} {outer : List OpenLoop}
      (ho : m.opened.dropWhile (fun o => !o.counts counter) = .forLoop node c :: outer) :
      c = counter := by
    have hhead := List.head?_dropWhile_not (fun o => !OpenLoop.counts counter o) m.opened
    rw [ho] at hhead
    simpa [OpenLoop.counts] using hhead
  have hsuffix {node : NodeId} {c : String} {outer : List OpenLoop}
      (ho : m.opened.dropWhile (fun o => !o.counts counter) = .forLoop node c :: outer) :
      .forLoop node c :: outer <:+ m.opened := ho ▸ List.dropWhile_suffix _
  -- a loop with this counter is never passed over
  have hpassed {node : NodeId} {outer : List OpenLoop}
      (ho : m.opened = .forLoop node counter :: outer) :
      m.opened.takeWhile (fun o => !o.counts counter) = [] := by
    simp [ho, OpenLoop.counts]
  rw [LoopMatching.closeNamed, List.span_eq_takeWhile_dropWhile]
  dsimp only
  split
  next hnone ho =>
    obtain rfl := hfirst ho
    rw [hnone, ho, List.nil_append] at hparts
    exact .inl ⟨_, _, hparts.symm, rfl⟩
  next expected _ _ c _ hsome ho =>
    obtain rfl := hfirst ho
    refine .inr ⟨fun _ _ h => by simp [hpassed h] at hsome, .nextMismatch id expected c, ?_⟩
    split
    · exact .inl rfl
    · exact .inr ⟨_, _, hsuffix ho, rfl⟩
  next hsome _ => exact .inr ⟨fun _ _ h => by simp [hpassed h] at hsome, _, .inl rfl⟩
  next hnone _ =>
    refine .inr ⟨fun node outer h => ?_, _, .inl rfl⟩
    rw [hpassed h, List.nil_append] at hparts
    exact hnone node counter outer (hpassed h) (hparts.trans h)

theorem Joins.closeNamed (h : Joins statements m) {id : NodeId} (counter : String)
    (hnext : CommandAt statements id (Command.IsNext counter)) :
    Joins statements (m.closeNamed id counter).1 := by
  rcases m.closeNamed_cases id counter with
    ⟨node, outer, hopened, heq⟩ | ⟨-, issue, heq | ⟨node, outer, hsuffix, heq⟩⟩
  · rw [heq]
    exact h.close hnext fun o ho => hopened ▸ ho
  · rw [heq]
    exact h.report _
  · rw [heq]
    exact (h.report _).close hnext fun o ho => hsuffix.subset ho

theorem Joins.closeAll (h : Joins statements m) {id : NodeId} (counters : List String)
    (hnext : ∀ counter ∈ counters, CommandAt statements id (Command.IsNext counter)) :
    Joins statements (m.closeAll id counters) := by
  induction counters generalizing m with
  | nil => exact h
  | cons counter rest ih =>
    rw [List.forall_mem_cons] at hnext
    have hm := h.closeNamed counter hnext.1
    rw [LoopMatching.closeAll]
    dsimp only
    split
    · exact ih hm hnext.2
    · exact hm

/-- One more statement keeps the loops in order. -/
theorem Joins.step (h : Joins statements m) {id : NodeId} {s : Statement}
    (hs : (id, s) ∈ statements) : Joins statements (m.step id s) := by
  rw [LoopMatching.step]
  split
  next counter start stop step hc =>
    exact h.push ⟨s, _, hs, hc, counter, start, stop, step, rfl, rfl⟩
  next condition hc => exact h.push ⟨s, _, hs, hc, condition, rfl⟩
  next hc => exact h.wend ⟨s, _, hs, hc, rfl⟩
  next hc => exact h.closeInnermost fun _ => ⟨s, _, hs, hc, [], rfl, .inl rfl⟩
  next counters _ hc =>
    exact h.closeAll _ fun _ hcounter => ⟨s, _, hs, hc, counters, rfl, .inr hcounter⟩
  next => exact h

theorem Joins.foldl_step (h : Joins statements m) {rest : List (NodeId × Statement)}
    (hrest : rest ⊆ statements) : Joins statements (rest.foldl (fun m e => m.step e.1 e.2) m) := by
  induction rest generalizing m with
  | nil => exact h
  | cons e rest ih =>
    rw [List.cons_subset] at hrest
    exact ih (h.step hrest.1) hrest.2

theorem joins_ofStatements (statements : List (NodeId × Statement)) :
    Joins statements (ofStatements statements) :=
  have h : Joins statements _ := joins_empty.foldl_step (List.Subset.refl statements)
  ⟨h.opened, h.forLoops, h.whileLoops⟩

end LoopMatching
end LineBasic
