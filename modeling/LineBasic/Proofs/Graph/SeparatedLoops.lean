import Mathlib.Data.List.Infix
import LineBasic.Proofs.Graph.LoopMatching
import LineBasic.Proofs.Graph.Separation

/-!
# Loops closed by separate `NEXT` statements

If nothing is wrong with the nesting of the loops, a `NEXT` closes as many loops as there are `NEXT`
statements after it has been separated, and each of these closes one of them, in the same order
(`Program.mem_forLoops_separateNexts_iff`).
-/

namespace LineBasic

/-- A `FOR` with its counter, as an open loop. -/
def OpenLoop.ofFor (l : NodeId × String) : OpenLoop := forLoop l.1 l.2

/-- The loops that a `NEXT` closes. -/
def closedAt (id : NodeId) (loops : List (NodeId × String)) : List ForLoop :=
  loops.map fun l => ⟨l.1, id, l.2⟩

/-- The loops that `NEXT` statements in a row close, one by each. -/
def closedInRow (id : NodeId) : List (NodeId × String) → List ForLoop
  | [] => []
  | l :: rest => ⟨l.1, id, l.2⟩ :: closedInRow (id + 1) rest

theorem mem_closedInRow_iff {id : NodeId} {loops : List (NodeId × String)} {l : ForLoop} :
    l ∈ closedInRow id loops ↔
      ∃ i, loops[i]? = some (l.forNode, l.counter) ∧ l.nextNode = id + i := by
  induction loops generalizing id with
  | nil => simp [closedInRow]
  | cons first rest ih =>
    rw [closedInRow, List.mem_cons, ih]
    constructor
    · rintro (rfl | ⟨i, hi, hl⟩)
      · exact ⟨0, rfl, rfl⟩
      · exact ⟨i + 1, hi, by rw [hl, Nat.add_assoc, Nat.add_comm 1]⟩
    · rintro ⟨_ | i, hi, hl⟩
      · obtain rfl : first = (l.forNode, l.counter) := Option.some.inj hi
        exact .inl (by rw [← Nat.add_zero id, ← hl])
      · exact .inr ⟨i, hi, by rw [hl, Nat.add_assoc, Nat.add_comm 1]⟩

namespace LoopMatching

variable {m m' : LoopMatching} {id : NodeId} {counter : String} {counters : List String}

/-- The state after some loops have been closed. -/
def closing (m : LoopMatching) (outer : List OpenLoop) (loops : List ForLoop) : LoopMatching :=
  { m with opened := outer, forLoops := m.forLoops ++ loops }

/-! ## Issues are never taken back -/

theorem issues_prefix_report (m : LoopMatching) (issue : StructureIssue) :
    m.issues <+: (m.report issue).issues :=
  List.prefix_append _ _

theorem issues_prefix_wend (m : LoopMatching) (id : NodeId) : m.issues <+: (m.wend id).issues := by
  rw [wend]
  split
  · exact List.prefix_rfl
  · exact m.issues_prefix_report _

theorem issues_prefix_closeInnermost (m : LoopMatching) (id : NodeId) :
    m.issues <+: (m.closeInnermost id).issues := by
  rw [closeInnermost]
  split
  · exact List.prefix_rfl
  · exact m.issues_prefix_report _

theorem issues_prefix_closeNamed (m : LoopMatching) (id : NodeId) (counter : String) :
    m.issues <+: (m.closeNamed id counter).1.issues := by
  rw [closeNamed]
  dsimp only
  split
  · exact List.prefix_rfl
  · split <;> exact m.issues_prefix_report _
  · exact m.issues_prefix_report _
  · exact m.issues_prefix_report _

theorem issues_prefix_closeAll (m : LoopMatching) (id : NodeId) (counters : List String) :
    m.issues <+: (m.closeAll id counters).issues := by
  induction counters generalizing m with
  | nil => exact List.prefix_rfl
  | cons counter rest ih =>
    rw [closeAll]
    dsimp only
    have hfirst := m.issues_prefix_closeNamed id counter
    split
    · exact hfirst.trans (ih _)
    · exact hfirst

theorem issues_prefix_step (m : LoopMatching) (id : NodeId) (s : Statement) :
    m.issues <+: (m.step id s).issues := by
  rw [step]
  split
  · exact List.prefix_rfl
  · exact List.prefix_rfl
  · exact m.issues_prefix_wend id
  · exact m.issues_prefix_closeInnermost id
  · exact m.issues_prefix_closeAll id _
  · exact List.prefix_rfl

/-! ## Closing loops without an issue -/

theorem closeInnermost_of_issues_eq_nil (h : (m.closeInnermost id).issues = []) :
    ∃ l outer, m.opened = .ofFor l :: outer ∧
      m.closeInnermost id = m.closing outer (closedAt id [l]) := by
  rw [closeInnermost] at h ⊢
  split
  next node counter outer ho => exact ⟨(node, counter), outer, ho, rfl⟩
  next => simp [report] at h

/-- A `NEXT` for a counter closes the innermost loop. -/
theorem closeNamed_of_issues_eq_nil (h : (m.closeNamed id counter).1.issues = []) :
    ∃ node outer, m.opened = .forLoop node counter :: outer ∧
      m.closeNamed id counter = (m.close id node counter outer, true) := by
  rw [closeNamed, List.span_eq_takeWhile_dropWhile] at h ⊢
  have hopened := List.takeWhile_append_dropWhile (p := fun o => !o.counts counter) (l := m.opened)
  have hfirst := List.head?_dropWhile_not (fun o => !OpenLoop.counts counter o) m.opened
  generalize m.opened.takeWhile (fun o => !OpenLoop.counts counter o) = inner at h hopened ⊢
  generalize m.opened.dropWhile (fun o => !OpenLoop.counts counter o) = outer at h hopened hfirst ⊢
  dsimp only at h ⊢
  split at h
  next node c outer =>
    obtain rfl : c = counter := by simpa [OpenLoop.counts] using hfirst
    exact ⟨node, outer, hopened.symm, rfl⟩
  next => split at h <;> simp [report, close] at h
  next => simp [report] at h
  next => simp [report] at h

/-- A list of counters closes as many loops, the innermost first. -/
theorem closeAll_of_issues_eq_nil (h : (m.closeAll id counters).issues = []) :
    ∃ loops outer, loops.map Prod.snd = counters ∧ m.opened = loops.map .ofFor ++ outer ∧
      m.closeAll id counters = m.closing outer (closedAt id loops) := by
  induction counters generalizing m with
  | nil => exact ⟨[], m.opened, rfl, rfl, by simp [closeAll, closing, closedAt]⟩
  | cons counter rest ih =>
    rw [closeAll] at h ⊢
    have hfirst : (m.closeNamed id counter).1.issues = [] := by
      dsimp only at h
      split at h
      · exact List.prefix_nil.1 (h ▸ issues_prefix_closeAll _ id rest)
      · exact h
    obtain ⟨node, outer, ho, hclose⟩ := closeNamed_of_issues_eq_nil hfirst
    rw [hclose] at h ⊢
    obtain ⟨loops, outer, hc, houter, hrest⟩ := ih h
    refine ⟨(node, counter) :: loops, outer, ?_, ?_, hrest.trans ?_⟩
    · rw [List.map_cons, hc]
    · rw [ho, List.map_cons, List.cons_append, ← houter]
      rfl
    · simp [closing, close, closedAt]

theorem closeNamed_of_opened {node : NodeId} {outer : List OpenLoop}
    (ho : m.opened = .forLoop node counter :: outer) :
    m.closeNamed id counter = (m.close id node counter outer, true) := by
  simp [closeNamed, List.span_eq_takeWhile_dropWhile, ho, OpenLoop.counts]

/-! ## Separate statements close the same loops -/

/-- The state after numbered statements. -/
def afterAll (m : LoopMatching) (placed : List Placed) : LoopMatching :=
  placed.foldl (fun m q => m.step q.id q.statement) m

theorem afterAll_cons (m : LoopMatching) (q : Placed) (rest : List Placed) :
    m.afterAll (q :: rest) = (m.step q.id q.statement).afterAll rest :=
  rfl

theorem afterAll_append (m : LoopMatching) (before after : List Placed) :
    m.afterAll (before ++ after) = (m.afterAll before).afterAll after :=
  List.foldl_append

theorem afterAll_row {place : Place} {next depth : Nat} {names : List Name}
    {loops : List (NodeId × String)} {outer : List OpenLoop}
    (hnames : loops.map Prod.snd = names.map Name.key)
    (ho : m.opened = loops.map .ofFor ++ outer) :
    m.afterAll (placedRow id next depth ((names.map fun c => .next [c]).map (.command place))) =
      m.closing outer (closedInRow id loops) := by
  induction names generalizing m id loops with
  | nil =>
    obtain rfl : loops = [] := List.map_eq_nil_iff.1 hnames
    obtain rfl : m.opened = outer := ho
    simp [placedRow, afterAll, closing, closedInRow]
  | cons c rest ih =>
    obtain ⟨⟨node, counter⟩, loops, rfl, rfl, hrest⟩ := List.map_eq_cons_iff.1 hnames
    have hstep : m.step id (.command place (.next [c])) =
        m.close id node c.key (loops.map .ofFor ++ outer) := by
      show m.closeAll id [c.key] = _
      rw [closeAll, closeNamed_of_opened ho]
      rfl
    have hopened : (m.close id node c.key (loops.map .ofFor ++ outer)).opened =
        loops.map .ofFor ++ outer := rfl
    rw [List.map_cons, List.map_cons, placedRow, afterAll_cons, hstep, ih hrest hopened]
    simp [closing, close, closedInRow]

/-- A `NEXT` and the statements that stand for it close the same loops. -/
theorem step_next_of_issues_eq_nil {head : NodeId → NodeId} {q : Placed} {place : Place}
    {names : List Name} (hq : q.statement = .command place (.next names))
    (h : (m.step q.id q.statement).issues = [])
    (hopened : m'.opened = m.opened.map (OpenLoop.renumbered head)) :
    ∃ loops outer, loops.length = q.statement.separated.length ∧
      m.step q.id q.statement = m.closing outer (closedAt q.id loops) ∧
      m'.afterAll (q.separated head) = m'.closing (outer.map (OpenLoop.renumbered head))
        (closedInRow (head q.id) (loops.map fun l => (head l.1, l.2))) := by
  have renumbered (loops : List (NodeId × String)) (outer : List OpenLoop)
      (ho : m.opened = loops.map .ofFor ++ outer) :
      m'.opened = (loops.map fun l => (head l.1, l.2)).map .ofFor ++
        outer.map (OpenLoop.renumbered head) := by
    rw [hopened, ho, List.map_append, List.map_map, List.map_map]
    rfl
  rw [Placed.separated]
  rw [hq] at h ⊢
  by_cases hnames : names = []
  · obtain rfl := hnames
    obtain ⟨l, outer, ho, hclose⟩ := closeInnermost_of_issues_eq_nil h
    refine ⟨[l], outer, rfl, hclose, ?_⟩
    have ho' := renumbered [l] outer ho
    show m'.closeInnermost (head q.id) = _
    rw [closeInnermost, ho']
    rfl
  · have hstep : m.step q.id (.command place (.next names)) =
        m.closeAll q.id (names.map Name.key) := by
      cases names with
      | nil => exact absurd rfl hnames
      | cons => rfl
    rw [hstep] at h ⊢
    obtain ⟨loops, outer, hkeys, ho, hclose⟩ := closeAll_of_issues_eq_nil h
    rw [Statement.separated, Command.separated_next hnames]
    refine ⟨loops, outer, ?_, hclose, afterAll_row ?_ (renumbered loops outer ho)⟩
    · simpa using congrArg List.length hkeys
    · rw [← hkeys, List.map_map]
      rfl

/-- Another statement than a `NEXT` closes no `FOR` loop. -/
theorem step_of_ne_next {head : NodeId → NodeId} {q : Placed}
    (hq : ∀ counters, q.statement.command? ≠ some (.next counters))
    (h : (m.step q.id q.statement).issues = [])
    (hopened : m'.opened = m.opened.map (OpenLoop.renumbered head))
    (hwhile : m'.whileLoops = m.whileLoops.map fun l => ⟨head l.whileNode, head l.wendNode⟩) :
    (m'.afterAll (q.separated head)).opened =
        (m.step q.id q.statement).opened.map (OpenLoop.renumbered head) ∧
      (m'.afterAll (q.separated head)).whileLoops = (m.step q.id q.statement).whileLoops.map
        (fun l => ⟨head l.whileNode, head l.wendNode⟩) ∧
      (m.step q.id q.statement).forLoops = m.forLoops ∧
      (m'.afterAll (q.separated head)).forLoops = m'.forLoops := by
  obtain ⟨s', hs', hc⟩ := Statement.exists_separated_eq hq
  have hafter : m'.afterAll (q.separated head) = m'.step (head q.id) s' := by
    rw [Placed.separated, hs']
    rfl
  rw [hafter, step, step, hc]
  rw [step] at h
  split
  next => exact ⟨by rw [List.map_cons, hopened]; rfl, hwhile, rfl, rfl⟩
  next => exact ⟨by rw [List.map_cons, hopened]; rfl, hwhile, rfl, rfl⟩
  next hc' =>
    rw [hc'] at h
    dsimp only at h
    rw [wend] at h ⊢
    split at h
    next node outer ho =>
      rw [wend, hopened, ho]
      exact ⟨rfl, by rw [List.map_append, ← hwhile]; rfl, rfl, rfl⟩
    next => simp [report] at h
  next hc' => exact absurd hc' (hq _)
  next hc' => exact absurd hc' (hq _)
  next => exact ⟨hopened, hwhile, rfl, rfl⟩

/-- What the matching of some statements and that of the statements standing for them have in
common; the loops that each statement closes are listed with it. -/
structure Separates (head : NodeId → NodeId) (closed : List (Placed × List (NodeId × String)))
    (m m' : LoopMatching) : Prop where
  opened : m'.opened = m.opened.map (OpenLoop.renumbered head)
  whileLoops : m'.whileLoops = m.whileLoops.map fun l => ⟨head l.whileNode, head l.wendNode⟩
  forLoops : m.forLoops = closed.flatMap fun e => closedAt e.1.id e.2
  inRow : m'.forLoops =
    closed.flatMap fun e => closedInRow (head e.1.id) (e.2.map fun l => (head l.1, l.2))
  length_le : ∀ e ∈ closed, e.2.length ≤ e.1.statement.separated.length
  length_eq : ∀ e ∈ closed, (∃ counters, e.1.statement.command? = some (.next counters)) →
    e.2.length = e.1.statement.separated.length

theorem Separates.step {head : NodeId → NodeId} {closed : List (Placed × List (NodeId × String))}
    (h : Separates head closed m m') (q : Placed)
    (hissues : (m.step q.id q.statement).issues = []) :
    ∃ loops, Separates head (closed ++ [(q, loops)]) (m.step q.id q.statement)
      (m'.afterAll (q.separated head)) := by
  by_cases hnext : ∃ counters, q.statement.command? = some (.next counters)
  · obtain ⟨names, hnames⟩ := hnext
    have hq : ∃ place, q.statement = .command place (.next names) := by
      rcases hs : q.statement with ⟨place, body⟩ | _ <;> rw [hs] at hnames
      · exact ⟨place, by rw [Option.some.inj hnames]⟩
      · cases hnames
    obtain ⟨place, hq⟩ := hq
    obtain ⟨loops, outer, hlength, hstep, hafter⟩ := step_next_of_issues_eq_nil hq hissues h.opened
    rw [hstep, hafter]
    refine ⟨loops, rfl, h.whileLoops, ?_, ?_, ?_, ?_⟩
    · simp [closing, h.forLoops]
    · simp [closing, h.inRow]
    · rw [List.forall_mem_append, List.forall_mem_singleton]
      exact ⟨h.length_le, Nat.le_of_eq hlength⟩
    · rw [List.forall_mem_append, List.forall_mem_singleton]
      exact ⟨h.length_eq, fun _ => hlength⟩
  · obtain ⟨hopened, hwhile, hfor, hfor'⟩ :=
      step_of_ne_next (fun counters hc => hnext ⟨counters, hc⟩) hissues h.opened h.whileLoops
    refine ⟨[], hopened, hwhile, ?_, ?_, ?_, ?_⟩
    · simp [hfor, h.forLoops, closedAt]
    · simp [hfor', h.inRow, closedInRow]
    · rw [List.forall_mem_append, List.forall_mem_singleton]
      exact ⟨h.length_le, Nat.zero_le _⟩
    · rw [List.forall_mem_append, List.forall_mem_singleton]
      exact ⟨h.length_eq, fun hc => absurd hc hnext⟩

theorem exists_separates_afterAll (head : NodeId → NodeId) (placed : List Placed)
    (hissues : (empty.afterAll placed).issues = []) :
    ∃ closed, closed.map Prod.fst = placed ∧ Separates head closed (empty.afterAll placed)
      (empty.afterAll (placed.flatMap (Placed.separated head))) := by
  induction placed using List.reverseRecOn with
  | nil => exact ⟨[], rfl, rfl, rfl, rfl, rfl, nofun, nofun⟩
  | append_singleton placed q ih =>
    rw [afterAll_append] at hissues
    have hbefore : (empty.afterAll placed).issues = [] :=
      List.prefix_nil.1 (hissues ▸ issues_prefix_step _ q.id q.statement)
    obtain ⟨closed, hclosed, hsep⟩ := ih hbefore
    obtain ⟨loops, hstep⟩ := hsep.step q hissues
    refine ⟨closed ++ [(q, loops)], by simp [hclosed], ?_⟩
    rw [List.flatMap_append, List.flatMap_singleton, afterAll_append, afterAll_append]
    exact hstep

end LoopMatching

/-- Of the parts of a list, those with the property are all in one. -/
theorem filter_flatMap_of_nodup {α β κ : Type} {key : α → κ} {part : α → List β} {holds : β → Bool}
    {whole : List α} {a : α} (hnodup : (whole.map key).Nodup) (ha : a ∈ whole)
    (h : ∀ b ∈ whole, ∀ x ∈ part b, holds x = true → key b = key a) :
    (whole.flatMap part).filter holds = (part a).filter holds := by
  obtain ⟨before, after, rfl⟩ := List.append_of_mem ha
  rw [List.map_append, List.map_cons, List.nodup_middle, List.nodup_cons,
    ← List.map_append] at hnodup
  have none (others : List α) (hsub : others ⊆ before ++ after) :
      (others.flatMap part).filter holds = [] := by
    rw [List.filter_eq_nil_iff]
    intro x hx hholds
    obtain ⟨b, hb, hx⟩ := List.mem_flatMap.1 hx
    have hb := hsub hb
    have hkey : key b = key a := h b (by simp at hb ⊢; tauto) x hx hholds
    exact hnodup.1 (hkey ▸ List.mem_map_of_mem hb)
  rw [List.flatMap_append, List.flatMap_cons, List.filter_append, List.filter_append,
    none before (List.subset_append_left _ _), none after (List.subset_append_right _ _),
    List.nil_append, List.append_nil]

namespace Program

variable {p : Program} {q : Placed}

theorem matchedLoops_eq (p : Program) :
    p.matchedLoops =
      { LoopMatching.empty.afterAll p.placed with issues := p.matchedLoops.issues } := by
  simp only [matchedLoops, LoopMatching.ofStatements, LoopMatching.afterAll, List.foldl_map]

theorem exists_separates (h : (Graph.build p).issues = []) :
    ∃ closed, closed.map Prod.fst = p.placed ∧
      LoopMatching.Separates p.headOf closed p.matchedLoops p.separateNexts.matchedLoops := by
  have hissues : (LoopMatching.empty.afterAll p.placed).issues = [] := by
    have hprefix : (LoopMatching.empty.afterAll p.placed).issues <+: (Graph.build p).issues := by
      show _ <+: p.matchedLoops.issues
      rw [matchedLoops, LoopMatching.ofStatements, List.foldl_map]
      exact List.prefix_append _ _
    exact List.prefix_nil.1 (h ▸ hprefix)
  obtain ⟨closed, hclosed, hsep⟩ :=
    LoopMatching.exists_separates_afterAll p.headOf p.placed hissues
  rw [← placed_separateNexts] at hsep
  rw [matchedLoops_eq p, matchedLoops_eq p.separateNexts]
  exact ⟨closed, hclosed, hsep.opened, hsep.whileLoops, hsep.forLoops, hsep.inRow, hsep.length_le,
    hsep.length_eq⟩

section Closed

variable {closed : List (Placed × List (NodeId × String))} {e : Placed × List (NodeId × String)}
  (hclosed : closed.map Prod.fst = p.placed)
  (hsep : LoopMatching.Separates p.headOf closed p.matchedLoops p.separateNexts.matchedLoops)
include hclosed

theorem mem_placed_of_mem_closed (he : e ∈ closed) : e.1 ∈ p.placed :=
  hclosed ▸ List.mem_map_of_mem he

theorem nodup_map_id_closed : (closed.map fun e => e.1.id).Nodup := by
  have hmap : (closed.map fun e => e.1.id) = p.placed.map Placed.id := by
    rw [← hclosed, List.map_map]
    rfl
  rw [hmap, map_id_placed]
  exact List.nodup_range'

include hsep

theorem loopsClosedBy_eq_closedAt (he : e ∈ closed) :
    (Graph.build p).loopsClosedBy e.1.id = closedAt e.1.id e.2 := by
  have hloops : (Graph.build p).forLoops = closed.flatMap fun e => closedAt e.1.id e.2 :=
    hsep.forLoops
  have nextNode {e : Placed × List (NodeId × String)} {l : ForLoop}
      (hl : l ∈ closedAt e.1.id e.2) : l.nextNode = e.1.id := by
    obtain ⟨_, -, rfl⟩ := List.mem_map.1 hl
    rfl
  rw [Graph.loopsClosedBy, hloops, filter_flatMap_of_nodup (nodup_map_id_closed hclosed) he]
  · exact List.filter_eq_self.2 fun l hl => beq_iff_eq.2 (nextNode hl)
  · exact fun b _ l hl h => (nextNode hl).symm.trans (beq_iff_eq.1 h)

theorem mem_forLoops_iff_of_closed {l' : ForLoop} :
    l' ∈ (Graph.build p.separateNexts).forLoops ↔
      ∃ id i l, ((Graph.build p).loopsClosedBy id)[i]? = some l ∧
        l' = ⟨p.headOf l.forNode, p.headOf id + i, l.counter⟩ := by
  have inRow : (Graph.build p.separateNexts).forLoops = closed.flatMap fun e =>
      closedInRow (p.headOf e.1.id) (e.2.map fun l => (p.headOf l.1, l.2)) := hsep.inRow
  rw [inRow, List.mem_flatMap]
  constructor
  · rintro ⟨e, he, hl'⟩
    obtain ⟨i, hi, hnext⟩ := mem_closedInRow_iff.1 hl'
    rw [List.getElem?_map, Option.map_eq_some_iff] at hi
    obtain ⟨l, hl, heq⟩ := hi
    obtain ⟨hfor, hcounter⟩ := Prod.mk.inj heq
    refine ⟨e.1.id, i, ⟨l.1, e.1.id, l.2⟩, ?_, ?_⟩
    · rw [loopsClosedBy_eq_closedAt hclosed hsep he, closedAt, List.getElem?_map, hl]
      rfl
    · rw [hfor, hcounter, ← hnext]
  · rintro ⟨id, i, l, hi, rfl⟩
    obtain ⟨hl, hid⟩ := List.mem_filter.1 (List.mem_of_getElem? hi)
    have hloops : (Graph.build p).forLoops = closed.flatMap fun e => closedAt e.1.id e.2 :=
      hsep.forLoops
    rw [hloops, List.mem_flatMap] at hl
    obtain ⟨e, he, hl⟩ := hl
    obtain ⟨_, -, rfl⟩ := List.mem_map.1 hl
    obtain rfl : e.1.id = id := beq_iff_eq.1 hid
    rw [loopsClosedBy_eq_closedAt hclosed hsep he, closedAt, List.getElem?_map,
      Option.map_eq_some_iff] at hi
    obtain ⟨l, hi, heq⟩ := hi
    refine ⟨e, he, mem_closedInRow_iff.2 ⟨i, ?_, rfl⟩⟩
    rw [List.getElem?_map, hi, ← heq]
    rfl

/-- A `NEXT` that stands for itself closes a loop with the same counter. -/
theorem loopsClosedBy_headOf_of_closed (he : e ∈ closed)
    (hone : e.1.statement.separated.length = 1) :
    ((Graph.build p.separateNexts).loopsClosedBy (p.headOf e.1.id)).map ForLoop.counter =
      ((Graph.build p).loopsClosedBy e.1.id).map ForLoop.counter := by
  have inRow : (Graph.build p.separateNexts).forLoops = closed.flatMap fun e =>
      closedInRow (p.headOf e.1.id) (e.2.map fun l => (p.headOf l.1, l.2)) := hsep.inRow
  rw [loopsClosedBy_eq_closedAt hclosed hsep he, Graph.loopsClosedBy, inRow,
    filter_flatMap_of_nodup (nodup_map_id_closed hclosed) he]
  · have hlength := hsep.length_le e he
    rw [hone] at hlength
    match h : e.2, hlength with
    | [], _ => rfl
    | [l], _ => simp [closedInRow, closedAt]
  · intro b hb l hl hnext
    obtain ⟨i, hi, hl⟩ := mem_closedInRow_iff.1 hl
    have hlt : i < b.1.statement.separated.length := by
      have := (List.getElem?_eq_some_iff.1 hi).1
      rw [List.length_map] at this
      exact Nat.lt_of_lt_of_le this (hsep.length_le b hb)
    have hstands : p.StandsFor l.nextNode b.1.id :=
      hl ▸ (standsFor_add_iff (mem_placed_of_mem_closed hclosed hb)).2 hlt
    rw [beq_iff_eq.1 hnext] at hstands
    exact hstands.unique (standsFor_headOf e.1.id)

end Closed

/-! ## The loops of the program -/

variable (h : (Graph.build p).issues = [])
include h

/-- Separate statements close one loop each, the loops that the list of counters closes. -/
theorem mem_forLoops_separateNexts_iff {l' : ForLoop} :
    l' ∈ (Graph.build p.separateNexts).forLoops ↔
      ∃ id i l, ((Graph.build p).loopsClosedBy id)[i]? = some l ∧
        l' = ⟨p.headOf l.forNode, p.headOf id + i, l.counter⟩ := by
  obtain ⟨closed, hclosed, hsep⟩ := exists_separates h
  exact mem_forLoops_iff_of_closed hclosed hsep

theorem whileLoops_separateNexts :
    (Graph.build p.separateNexts).whileLoops =
      (Graph.build p).whileLoops.map fun l => ⟨p.headOf l.whileNode, p.headOf l.wendNode⟩ := by
  obtain ⟨closed, -, hsep⟩ := exists_separates h
  exact hsep.whileLoops

theorem length_loopsClosedBy (hq : q ∈ p.placed) {counters : List Name}
    (hc : q.statement.command? = some (.next counters)) :
    ((Graph.build p).loopsClosedBy q.id).length = q.statement.separated.length := by
  obtain ⟨closed, hclosed, hsep⟩ := exists_separates h
  rw [← hclosed] at hq
  obtain ⟨e, he, rfl⟩ := List.mem_map.1 hq
  rw [loopsClosedBy_eq_closedAt hclosed hsep he, closedAt, List.length_map]
  exact hsep.length_eq e he ⟨counters, hc⟩

theorem loopsClosedBy_headOf (hq : q ∈ p.placed) (hone : q.statement.separated.length = 1) :
    ((Graph.build p.separateNexts).loopsClosedBy (p.headOf q.id)).map ForLoop.counter =
      ((Graph.build p).loopsClosedBy q.id).map ForLoop.counter := by
  obtain ⟨closed, hclosed, hsep⟩ := exists_separates h
  rw [← hclosed] at hq
  obtain ⟨e, he, rfl⟩ := List.mem_map.1 hq
  exact loopsClosedBy_headOf_of_closed hclosed hsep he hone

end Program
end LineBasic
