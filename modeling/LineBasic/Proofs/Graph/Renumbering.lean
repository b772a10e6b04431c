import LineBasic.Proofs.Graph.WellFormed

/-!
# Renumbered statements

Two programs may have statements with the same commands under different numbers. Then the loops are
matched alike (`LoopMatching.renumbered_step`), and the edges of `RETURN` and `RESUME` lead to the
same statements (`Program.Renumbers.mem_backEdges_iff`).
-/

namespace LineBasic

variable {head : NodeId → NodeId}

/-! ## Loops -/

/-- The loop with the number that its first statement gets. -/
def OpenLoop.renumbered (head : NodeId → NodeId) : OpenLoop → OpenLoop
  | forLoop node counter => forLoop (head node) counter
  | whileLoop node => whileLoop (head node)

def ForLoop.renumbered (head : NodeId → NodeId) (l : ForLoop) : ForLoop :=
  ⟨head l.forNode, head l.nextNode, l.counter⟩

def WhileLoop.renumbered (head : NodeId → NodeId) (l : WhileLoop) : WhileLoop :=
  ⟨head l.whileNode, head l.wendNode⟩

def StructureIssue.renumbered (head : NodeId → NodeId) : StructureIssue → StructureIssue
  | nextWithoutFor node => nextWithoutFor (head node)
  | nextMismatch node expected found => nextMismatch (head node) expected found
  | wendWithoutWhile node => wendWithoutWhile (head node)
  | unclosedFor node counter => unclosedFor (head node) counter
  | unclosedWhile node => unclosedWhile (head node)

theorem OpenLoop.unclosed_renumbered (o : OpenLoop) :
    (o.renumbered head).unclosed = o.unclosed.renumbered head := by
  cases o <;> rfl

theorem OpenLoop.counts_renumbered (o : OpenLoop) (counter : String) :
    (o.renumbered head).counts counter = o.counts counter := by
  cases o <;> rfl

theorem OpenLoop.isWhile_renumbered (o : OpenLoop) :
    (o.renumbered head).isWhile = o.isWhile := by
  cases o <;> rfl

namespace LoopMatching

def renumbered (head : NodeId → NodeId) (m : LoopMatching) : LoopMatching where
  opened := m.opened.map (OpenLoop.renumbered head)
  forLoops := m.forLoops.map (ForLoop.renumbered head)
  whileLoops := m.whileLoops.map (WhileLoop.renumbered head)
  issues := m.issues.map (StructureIssue.renumbered head)

variable (m : LoopMatching) (id : NodeId)

theorem renumbered_report (issue : StructureIssue) :
    (m.report issue).renumbered head = (m.renumbered head).report (issue.renumbered head) := by
  simp [report, renumbered]

theorem renumbered_close (node : NodeId) (counter : String) (outer : List OpenLoop) :
    (m.close id node counter outer).renumbered head =
      (m.renumbered head).close (head id) (head node) counter
        (outer.map (OpenLoop.renumbered head)) := by
  simp [close, renumbered, ForLoop.renumbered]

theorem renumbered_wend : (m.wend id).renumbered head = (m.renumbered head).wend (head id) := by
  have hopened : (m.renumbered head).opened = m.opened.map (OpenLoop.renumbered head) := rfl
  rw [wend, wend, hopened]
  rcases m.opened with _ | ⟨_ | node, outer⟩
  · exact m.renumbered_report _
  · exact m.renumbered_report _
  · simp [renumbered, OpenLoop.renumbered, WhileLoop.renumbered]

theorem renumbered_closeInnermost :
    (m.closeInnermost id).renumbered head = (m.renumbered head).closeInnermost (head id) := by
  have hopened : (m.renumbered head).opened = m.opened.map (OpenLoop.renumbered head) := rfl
  rw [closeInnermost, closeInnermost, hopened]
  rcases m.opened with _ | ⟨_ | _, outer⟩
  · exact m.renumbered_report _
  · exact m.renumbered_close _ _ _ _
  · exact m.renumbered_report _

theorem renumbered_closeNamed (counter : String) :
    (m.renumbered head).closeNamed (head id) counter =
      ((m.closeNamed id counter).1.renumbered head, (m.closeNamed id counter).2) := by
  have hopened : (m.renumbered head).opened = m.opened.map (OpenLoop.renumbered head) := rfl
  have hcounts : (fun o => !OpenLoop.counts counter o) ∘ OpenLoop.renumbered head =
      fun o => !o.counts counter := funext fun o => by simp [OpenLoop.counts_renumbered]
  rw [closeNamed, closeNamed, hopened, List.span_eq_takeWhile_dropWhile,
    List.span_eq_takeWhile_dropWhile, List.takeWhile_map, List.dropWhile_map, hcounts]
  generalize m.opened.takeWhile (fun o => !o.counts counter) = inner
  generalize m.opened.dropWhile (fun o => !o.counts counter) = outer
  have hwhile : (inner.map (OpenLoop.renumbered head)).any OpenLoop.isWhile =
      inner.any OpenLoop.isWhile := by
    rw [List.any_map]
    exact congrArg inner.any (funext fun o => o.isWhile_renumbered)
  have mismatch (expected : String) :
      (m.renumbered head).report (.nextMismatch (head id) expected counter) =
        (m.report (.nextMismatch id expected counter)).renumbered head :=
    (m.renumbered_report (.nextMismatch id expected counter)).symm
  have without : (m.renumbered head).report (.nextWithoutFor (head id)) =
      (m.report (.nextWithoutFor id)).renumbered head :=
    (m.renumbered_report (.nextWithoutFor id)).symm
  rcases inner with _ | ⟨⟨_, expected⟩ | _, inner⟩
  · rcases outer with _ | ⟨_ | _, outer⟩
    · exact congrArg (·, false) without
    · exact congrArg (·, true) (m.renumbered_close _ _ _ _).symm
    · exact congrArg (·, false) without
  · rcases outer with _ | ⟨_ | _, outer⟩
    · exact congrArg (·, false) (mismatch expected)
    · simp only [List.map_cons, OpenLoop.renumbered, mismatch] at hwhile ⊢
      rw [hwhile]
      split
      · rfl
      · exact congrArg (·, true) (renumbered_close _ _ _ _ _).symm
    · exact congrArg (·, false) (mismatch expected)
  · exact congrArg (·, false) without

theorem renumbered_closeAll (counters : List String) :
    (m.closeAll id counters).renumbered head =
      (m.renumbered head).closeAll (head id) counters := by
  induction counters generalizing m with
  | nil => rfl
  | cons counter rest ih =>
    rw [closeAll, closeAll, renumbered_closeNamed]
    dsimp only
    rw [apply_ite (renumbered head), ih]

/-- A step depends on the command of the statement only, and does the same under other numbers. -/
theorem renumbered_step {s s' : Statement} (h : s'.command? = s.command?) :
    (m.step id s).renumbered head = (m.renumbered head).step (head id) s' := by
  rw [step, step, h]
  split
  · rfl
  · rfl
  · exact m.renumbered_wend id
  · exact m.renumbered_closeInnermost id
  · exact m.renumbered_closeAll id _
  · rfl

theorem renumbered_withUnclosed :
    ({ m with issues := m.issues ++ m.opened.reverse.map OpenLoop.unclosed } :
        LoopMatching).renumbered head =
      { m.renumbered head with
        issues := (m.renumbered head).issues ++
          (m.renumbered head).opened.reverse.map OpenLoop.unclosed } := by
  simp [renumbered, Function.comp_def, OpenLoop.unclosed_renumbered]

end LoopMatching

/-! ## Edges of loops -/

namespace Graph

/-- The bounds of the loop are constants, and its body runs whenever the loop is entered. -/
def alwaysIterates (g : Graph) (l : ForLoop) : Bool :=
  ((g.node? l.forNode).bind Node.command?).any Command.alwaysIterates

end Graph

namespace Program

variable {p : Program} {q : Placed} {e : Edge}

theorem find?_placed (hq : q ∈ p.placed) : (p.placed.find? fun q' => q'.id == q.id) = some q := by
  rcases h : p.placed.find? fun q' => q'.id == q.id with _ | q'
  · exact absurd (beq_self_eq_true q.id) (List.find?_eq_none.1 h q hq)
  · have hid := List.find?_some h
    exact eq_of_id_eq (List.mem_of_find?_eq_some h) hq (beq_iff_eq.1 hid) ▸ h

/-- What is found at a number is what the node there holds. -/
theorem find?_placed_eq (p : Program) (id : NodeId) :
    (p.placed.find? fun q => q.id == id).elim Graph.exit Placed.next = (Graph.build p).next id ∧
      ((p.placed.find? fun q => q.id == id).bind fun q => q.statement.command?) =
        ((Graph.build p).node? id).bind Node.command? := by
  by_cases hid : ∃ q ∈ p.placed, q.id = id
  · obtain ⟨q, hq, rfl⟩ := hid
    rw [find?_placed hq, Graph.next_build_of_mem_placed hq, Graph.node?_build_of_mem_placed hq]
    exact ⟨rfl, rfl⟩
  · have hnone : (p.placed.find? fun q => q.id == id) = none :=
      List.find?_eq_none.2 fun q hq h => hid ⟨q, hq, beq_iff_eq.1 h⟩
    rw [hnone, Graph.next]
    rcases hn : (Graph.build p).node? id with _ | n
    · exact ⟨rfl, rfl⟩
    · rcases Graph.eq_of_node?_build hn with ⟨-, line, rfl⟩ | ⟨q, hq, hqid, -⟩
      · exact ⟨rfl, rfl⟩
      · exact absurd ⟨q, hq, hqid⟩ hid

theorem mem_loopEdges_iff :
    e ∈ loopEdges p.placed p.matchedLoops ↔
      (∃ l ∈ (Graph.build p).forLoops,
        e = ⟨l.nextNode, (Graph.build p).next l.forNode, .loopBack⟩ ∨
          (Graph.build p).alwaysIterates l = false ∧
            e = ⟨l.forNode, (Graph.build p).next l.nextNode, .loopSkip⟩) ∨
      ∃ l ∈ (Graph.build p).whileLoops,
        e = ⟨l.whileNode, (Graph.build p).next l.wendNode, .loopExit⟩ ∨
          e = ⟨l.wendNode, l.whileNode, .loopBack⟩ := by
  rw [loopEdges, List.mem_append, List.mem_flatMap, List.mem_flatMap]
  simp only [(find?_placed_eq p _).1, (find?_placed_eq p _).2]
  refine or_congr (exists_congr fun l => and_congr_right fun _ => ?_) ?_
  · rw [List.mem_cons]
    refine or_congr_right ?_
    rw [← Graph.alwaysIterates]
    cases (Graph.build p).alwaysIterates l <;> simp
  · simp only [List.mem_cons, List.not_mem_nil, or_false]
    rfl

end Program

/-! ## Edges of `RETURN` and `RESUME` -/

/-- The edge between the statements that get the numbers of its ends. -/
def Edge.renumbered (head : NodeId → NodeId) (e : Edge) : Edge :=
  ⟨head e.source, head e.target, e.kind⟩

/-- A statement has the command of another one and the place that `head` gives it. -/
structure Placed.Twin (head : NodeId → NodeId) (q' q : Placed) : Prop where
  command : q'.statement.command? = q.statement.command?
  id_eq : q'.id = head q.id
  next_eq : q'.next = head q.next

/-- The statements of two programs that are `kept`, all but some `NEXT` and `GOTO`, are the same
under other numbers. -/
structure Program.Renumbers (p p' : Program) (head : NodeId → NodeId)
    (kept : Option Command → Prop) : Prop where
  exit : head Graph.exit = Graph.exit
  exists_twin : ∀ {q}, q ∈ p.placed → kept q.statement.command? → ∃ q' ∈ p'.placed, q'.Twin head q
  exists_origin : ∀ {q'}, q' ∈ p'.placed → kept q'.statement.command? →
    ∃ q ∈ p.placed, q'.Twin head q
  kept : ∀ {c}, (∀ counters, c ≠ some (.next counters)) → (∀ line, c ≠ some (.goto line)) → kept c

theorem mem_leadingEdges_renumbered_iff (hexit : head Graph.exit = Graph.exit) {id : NodeId}
    {kind : EdgeKind} {targets targets' : List NodeId}
    (htargets : ∀ t', t' ∈ targets' ↔ ∃ t, t ∈ targets ∧ t' = head t) {e' : Edge} :
    e' ∈ leadingEdges (head id) kind targets' ↔
      ∃ e ∈ leadingEdges id kind targets, e' = e.renumbered head := by
  have hnil : targets' = [] ↔ targets = [] := by
    simp only [List.eq_nil_iff_forall_not_mem, htargets, not_exists, not_and]
    exact ⟨fun h t ht => h _ t ht rfl, fun h _ t ht => absurd ht (h t)⟩
  simp only [Program.mem_leadingEdges_iff, htargets, hnil]
  constructor
  · rintro ⟨hs, hk, ⟨hnone, ht⟩ | ⟨t, hmem, ht⟩⟩
    · refine ⟨⟨id, Graph.exit, kind⟩, ⟨rfl, rfl, .inl ⟨hnone, rfl⟩⟩, ?_⟩
      rw [Edge.renumbered, hexit, ← hs, ← hk, ← ht]
    · refine ⟨⟨id, t, kind⟩, ⟨rfl, rfl, .inr hmem⟩, ?_⟩
      rw [Edge.renumbered, ← hs, ← hk, ← ht]
  · rintro ⟨e, ⟨hs, hk, ht⟩, rfl⟩
    refine ⟨congrArg head hs, hk, ?_⟩
    rcases ht with ⟨hnone, ht⟩ | ht
    · exact .inl ⟨hnone, by rw [Edge.renumbered, ht, hexit]⟩
    · exact .inr ⟨e.target, ht, rfl⟩

namespace Program.Renumbers

variable {p p' : Program} {kept : Option Command → Prop} (h : p.Renumbers p' head kept)
include h

/-- Control goes from the kept statements to the same ones. -/
theorem exists_next_iff {P : Option Command → Prop} (hP : ∀ c, P c → kept c) {t' : NodeId} :
    (∃ q' ∈ p'.placed, P q'.statement.command? ∧ q'.next = t') ↔
      ∃ t, (∃ q ∈ p.placed, P q.statement.command? ∧ q.next = t) ∧ t' = head t := by
  constructor
  · rintro ⟨q', hq', hc, rfl⟩
    obtain ⟨q, hq, htwin⟩ := h.exists_origin hq' (hP _ hc)
    exact ⟨q.next, ⟨q, hq, htwin.command ▸ hc, rfl⟩, htwin.next_eq⟩
  · rintro ⟨t, ⟨q, hq, hc, rfl⟩, rfl⟩
    obtain ⟨q', hq', htwin⟩ := h.exists_twin hq (hP _ hc)
    exact ⟨q', hq', htwin.command.symm ▸ hc, htwin.next_eq⟩

theorem mem_returnPoints_iff (t' : NodeId) :
    t' ∈ returnPoints p'.placed ↔ ∃ t, t ∈ returnPoints p.placed ∧ t' = head t := by
  simp only [Program.mem_returnPoints_iff]
  refine h.exists_next_iff (P := fun c => ∃ call, c = some call ∧ call.IsCall) ?_
  rintro c ⟨_, rfl, ⟨_, rfl⟩ | ⟨_, _, rfl⟩⟩ <;> exact h.kept nofun nofun

theorem mem_resumePoints_iff (t' : NodeId) :
    t' ∈ resumePoints p'.placed ↔ ∃ t, t ∈ resumePoints p.placed ∧ t' = head t := by
  simp only [Program.mem_resumePoints_iff]
  refine h.exists_next_iff (P := fun c => ∃ line, c = some (.onError line) ∧ line ≠ 0) ?_
  rintro c ⟨_, rfl, -⟩
  exact h.kept nofun nofun

theorem mem_backEdges_iff {e' : Edge} :
    e' ∈ backEdges p'.placed ↔ ∃ e ∈ backEdges p.placed, e' = e.renumbered head := by
  have returns {id : NodeId} : e' ∈ leadingEdges (head id) .back (returnPoints p'.placed) ↔
      ∃ e ∈ leadingEdges id .back (returnPoints p.placed), e' = e.renumbered head :=
    mem_leadingEdges_renumbered_iff h.exit h.mem_returnPoints_iff
  have resumes {id : NodeId} : e' ∈ leadingEdges (head id) .resume (resumePoints p'.placed) ↔
      ∃ e ∈ leadingEdges id .resume (resumePoints p.placed), e' = e.renumbered head :=
    mem_leadingEdges_renumbered_iff h.exit h.mem_resumePoints_iff
  have kept {c : Option Command}
      (hc : c = some .returnSub ∨ ∃ point, c = some (.resume point)) : kept c := by
    rcases hc with rfl | ⟨_, rfl⟩ <;> exact h.kept nofun nofun
  simp only [Program.mem_backEdges_iff]
  constructor
  · rintro ⟨q', hq', ⟨hc, he'⟩ | ⟨⟨point, hc, hpoint⟩, he'⟩⟩
    · obtain ⟨q, hq, htwin⟩ := h.exists_origin hq' (kept (.inl hc))
      rw [htwin.id_eq] at he'
      obtain ⟨e, he, rfl⟩ := returns.1 he'
      exact ⟨e, ⟨q, hq, .inl ⟨htwin.command.symm.trans hc, he⟩⟩, rfl⟩
    · obtain ⟨q, hq, htwin⟩ := h.exists_origin hq' (kept (.inr ⟨point, hc⟩))
      rw [htwin.id_eq] at he'
      obtain ⟨e, he, rfl⟩ := resumes.1 he'
      exact ⟨e, ⟨q, hq, .inr ⟨⟨point, htwin.command.symm.trans hc, hpoint⟩, he⟩⟩, rfl⟩
  · rintro ⟨e, ⟨q, hq, ⟨hc, he⟩ | ⟨⟨point, hc, hpoint⟩, he⟩⟩, heq⟩
    · obtain ⟨q', hq', htwin⟩ := h.exists_twin hq (kept (.inl hc))
      have he' := returns.2 ⟨e, he, heq⟩
      exact ⟨q', hq', .inl ⟨htwin.command.trans hc, htwin.id_eq ▸ he'⟩⟩
    · obtain ⟨q', hq', htwin⟩ := h.exists_twin hq (kept (.inr ⟨point, hc⟩))
      have he' := resumes.2 ⟨e, he, heq⟩
      exact ⟨q', hq', .inr ⟨⟨point, htwin.command.trans hc, hpoint⟩, htwin.id_eq ▸ he'⟩⟩

end Program.Renumbers

/-! ## Edges of commands -/

/-- A jump to a line leads to the statement that gets the number of the one there. -/
structure EdgeContext.Alike (head : NodeId → NodeId) (ctx ctx' : EdgeContext) : Prop where
  exit : head Graph.exit = Graph.exit
  entryOf : ∀ line, ctx'.entryOf line = head (ctx.entryOf line)

theorem EdgeContext.entryOf_of_entries {ctx ctx' : EdgeContext}
    (hexit : head Graph.exit = Graph.exit) (line : Nat)
    (h : ctx'.entries = ctx.entries.map fun e => (e.1, head e.2)) :
    ctx'.entryOf line = head (ctx.entryOf line) := by
  have found : (ctx.entries.map fun e => (e.1, head e.2)).find? (fun e => e.1 == line) =
      (ctx.entries.find? fun e => e.1 == line).map fun e => (e.1, head e.2) :=
    List.find?_map ..
  have target (e : Option (Nat × NodeId)) :
      ((e.map fun e => (e.1, head e.2)).map Prod.snd).getD Graph.exit =
        head ((e.map Prod.snd).getD Graph.exit) := by
    cases e
    · exact hexit.symm
    · rfl
  show ((ctx'.entries.find? fun e => e.1 == line).map Prod.snd).getD Graph.exit = _
  rw [h, found, target]
  rfl

/-- The edges of a command other than a list of counters. -/
theorem EdgeContext.Alike.commandEdges {ctx ctx' : EdgeContext}
    (halike : EdgeContext.Alike head ctx ctx') {id next : NodeId} {c : Command}
    (hnext : (∃ counters, c = .next counters) →
      (ctx'.forLoops.any fun l => l.nextNode == head id) =
        ctx.forLoops.any fun l => l.nextNode == id)
    (hwend : (ctx'.whileLoops.any fun l => l.wendNode == head id) =
      ctx.whileLoops.any fun l => l.wendNode == id) :
    ctx'.commandEdges (head id) (head next) c =
      (ctx.commandEdges id next c).map (Edge.renumbered head) := by
  cases c with
  | goto | gosub => simp [EdgeContext.commandEdges, Edge.renumbered, halike.entryOf]
  | onGoto | onGosub => simp [EdgeContext.commandEdges, Edge.renumbered, halike.entryOf]
  | endRun | stopRun => simp [EdgeContext.commandEdges, Edge.renumbered, halike.exit]
  | onError line =>
    by_cases hline : line = 0 <;>
      simp [EdgeContext.commandEdges, Edge.renumbered, halike.entryOf, hline]
  | resume point => cases point <;> simp [EdgeContext.commandEdges, Edge.renumbered, halike.entryOf]
  | next counters =>
    rw [EdgeContext.commandEdges, EdgeContext.commandEdges, hnext ⟨counters, rfl⟩]
    split <;> rfl
  | wend =>
    rw [EdgeContext.commandEdges, EdgeContext.commandEdges, hwend]
    split <;> rfl
  | _ => rfl

end LineBasic
