import Mathlib.Data.List.Sort
import LineBasic.Proofs.Graph.Brackets

/-!
# Regions of loops

A loop takes up the statements from its `FOR` or `WHILE` to its `NEXT` or `WEND`. In every program,
whatever the issues, two such regions are disjoint or one is within the other, since the loops that
are still open have been opened one after the other and outside the closed ones
(`Graph.loops_bracketed`).
-/

namespace LineBasic

/-- From the node that opens a loop to the node that closes it. -/
abbrev LoopRegion := NodeId × NodeId

def loopRegions (fors : List ForLoop) (whiles : List WhileLoop) : List LoopRegion :=
  fors.map (fun l => (l.forNode, l.nextNode)) ++ whiles.map fun l => (l.whileNode, l.wendNode)

/-- One region is before the other, or within it. -/
def DisjointOrNested (r s : LoopRegion) : Prop :=
  r.2 < s.1 ∨ s.2 < r.1 ∨ (r.1 < s.1 ∧ s.2 ≤ r.2) ∨ (s.1 < r.1 ∧ r.2 ≤ s.2)

theorem DisjointOrNested.symm {r s : LoopRegion} (h : DisjointOrNested r s) :
    DisjointOrNested s r := by
  rcases h with h | h | h | h
  · exact .inr (.inl h)
  · exact .inl h
  · exact .inr (.inr (.inr h))
  · exact .inr (.inr (.inl h))

/-! ## Open and closed loops -/

/-- Loops that are opened before `now`, and closed before `later`. The open ones have been opened one
after the other, and none of them within a closed one. -/
structure Laminar (now later : NodeId) (opened : List NodeId) (regions : List LoopRegion) :
    Prop where
  opened_lt : ∀ o ∈ opened, o < now
  sorted : opened.Pairwise (· > ·)
  region : ∀ r ∈ regions, r.1 < r.2 ∧ r.2 < later
  outside : ∀ r ∈ regions, ∀ o ∈ opened, o < r.1 ∨ r.2 < o
  pairwise : regions.Pairwise DisjointOrNested

namespace Laminar

variable {now later now' later' node : NodeId} {opened outer : List NodeId}
  {regions regions' : List LoopRegion}

theorem nil : Laminar now later [] [] := ⟨nofun, .nil, nofun, nofun, .nil⟩

theorem mono (h : Laminar now later opened regions) (hnow : now ≤ now') (hlater : later ≤ later') :
    Laminar now' later' opened regions :=
  { h with
    opened_lt := fun o ho => lt_of_lt_of_le (h.opened_lt o ho) hnow
    region := fun r hr => ⟨(h.region r hr).1, lt_of_lt_of_le (h.region r hr).2 hlater⟩ }

theorem perm (h : Laminar now later opened regions) (hperm : regions.Perm regions') :
    Laminar now later opened regions' :=
  { h with
    region := fun r hr => h.region r (hperm.mem_iff.2 hr)
    outside := fun r hr => h.outside r (hperm.mem_iff.2 hr)
    pairwise := h.pairwise.perm hperm DisjointOrNested.symm }

theorem push (h : Laminar now now opened regions) :
    Laminar (now + 1) (now + 1) (now :: opened) regions where
  opened_lt := by
    intro o ho
    rcases List.mem_cons.1 ho with rfl | ho
    · exact Nat.lt_succ_self o
    · exact Nat.lt_succ_of_lt (h.opened_lt o ho)
  sorted := List.pairwise_cons.2 ⟨h.opened_lt, h.sorted⟩
  region := fun r hr => ⟨(h.region r hr).1, Nat.lt_succ_of_lt (h.region r hr).2⟩
  outside := by
    intro r hr o ho
    rcases List.mem_cons.1 ho with rfl | ho
    · exact .inr (h.region r hr).2
    · exact h.outside r hr o ho
  pairwise := h.pairwise

/-- The loops inside the one that is closed are given up. -/
theorem close (h : Laminar now (now + 1) opened regions) (hsuffix : node :: outer <:+ opened) :
    Laminar now (now + 1) outer ((node, now) :: regions) := by
  have hnode : node ∈ opened := hsuffix.subset List.mem_cons_self
  have houter : outer ⊆ opened := fun o ho => hsuffix.subset (List.mem_cons_of_mem _ ho)
  obtain ⟨hlt, hsorted⟩ := List.pairwise_cons.1 (h.sorted.sublist hsuffix.sublist)
  constructor
  case opened_lt => exact fun o ho => h.opened_lt o (houter ho)
  case sorted => exact hsorted
  case region =>
    intro r hr
    rcases List.mem_cons.1 hr with rfl | hr
    · exact ⟨h.opened_lt node hnode, Nat.lt_succ_self now⟩
    · exact h.region r hr
  case outside =>
    intro r hr o ho
    rcases List.mem_cons.1 hr with rfl | hr
    · exact .inl (hlt o ho)
    · exact h.outside r hr o (houter ho)
  case pairwise =>
    refine List.pairwise_cons.2 ⟨fun r hr => ?_, h.pairwise⟩
    rcases h.outside r hr node hnode with hbefore | hafter
    · exact .inr (.inr (.inl ⟨hbefore, Nat.lt_succ_iff.1 (h.region r hr).2⟩))
    · exact .inr (.inl hafter)

/-- A node opens at most one loop. -/
theorem nodup_opening (h : Laminar now later opened regions) : (regions.map Prod.fst).Nodup := by
  have hne {r s : LoopRegion} (hr : r ∈ regions) (hs : s ∈ regions) (hrs : DisjointOrNested r s) :
      r.1 ≠ s.1 := by
    have hr := (h.region r hr).1
    have hs := (h.region s hs).1
    rcases hrs with hrs | hrs | hrs | hrs
    · exact ne_of_lt (hr.trans hrs)
    · exact ne_of_gt (hs.trans hrs)
    · exact ne_of_lt hrs.1
    · exact ne_of_gt hrs.1
  rw [List.Nodup, List.pairwise_map]
  exact h.pairwise.imp_of_mem hne

end Laminar

/-! ## The regions of a matching -/

def OpenLoop.node : OpenLoop → NodeId
  | forLoop node _ | whileLoop node => node

namespace LoopMatching

variable {m : LoopMatching} {now later id : NodeId}

def regions (m : LoopMatching) : List LoopRegion := loopRegions m.forLoops m.whileLoops

/-- The loops of a matching are nested, and a `WEND` closes at most one of them. -/
structure Nests (now later : NodeId) (m : LoopMatching) : Prop where
  laminar : Laminar now later (m.opened.map OpenLoop.node) m.regions
  wends : (m.whileLoops.map WhileLoop.wendNode).Pairwise (· < ·)

theorem nests_empty : Nests now later empty := ⟨.nil, .nil⟩

theorem Nests.mono (h : Nests now later m) {now' later' : NodeId} (hnow : now ≤ now')
    (hlater : later ≤ later') : Nests now' later' m :=
  ⟨h.laminar.mono hnow hlater, h.wends⟩

theorem Nests.report (h : Nests now later m) (issue : StructureIssue) :
    Nests now later (m.report issue) :=
  ⟨h.laminar, h.wends⟩

theorem Nests.push (h : Nests id id m) {o : OpenLoop} (ho : o.node = id) :
    Nests (id + 1) (id + 1) { m with opened := o :: m.opened } := by
  subst ho
  exact ⟨h.laminar.push, h.wends⟩

theorem Nests.close (h : Nests id (id + 1) m) {node : NodeId} {counter : String}
    {outer : List OpenLoop} (hsuffix : .forLoop node counter :: outer <:+ m.opened) :
    Nests id (id + 1) (m.close id node counter outer) where
  laminar := by
    have hperm : ((node, id) :: m.regions).Perm (m.close id node counter outer).regions := by
      simp only [regions, loopRegions, LoopMatching.close, List.map_append, List.map_cons,
        List.map_nil, List.append_assoc, List.singleton_append]
      exact List.perm_middle.symm
    exact (h.laminar.close (hsuffix.map OpenLoop.node)).perm hperm
  wends := h.wends

theorem Nests.wend (h : Nests id id m) : Nests (id + 1) (id + 1) (m.wend id) := by
  rw [LoopMatching.wend]
  split
  next node outer hopened =>
    have hlater := h.laminar.mono (le_refl id) (Nat.le_succ id)
    have hsuffix : node :: outer.map OpenLoop.node <:+ m.opened.map OpenLoop.node := by
      rw [hopened]
      exact List.suffix_refl _
    constructor
    case laminar =>
      refine ((hlater.close hsuffix).mono (Nat.le_succ id) (le_refl _)).perm ?_
      simp only [regions, loopRegions, List.map_append, List.map_cons, List.map_nil,
        ← List.append_assoc]
      exact (List.perm_append_singleton _ _).symm
    case wends =>
      rw [List.map_append, List.pairwise_append]
      refine ⟨h.wends, List.pairwise_singleton _ _, fun wend hwend id' hid => ?_⟩
      obtain ⟨l, hl, rfl⟩ := List.mem_map.1 hwend
      obtain rfl : id' = id := by simpa using hid
      have hregion : (l.whileNode, l.wendNode) ∈ m.regions :=
        List.mem_append_right _ (List.mem_map_of_mem hl)
      exact (h.laminar.region _ hregion).2
  next => exact (h.mono (Nat.le_succ id) (Nat.le_succ id)).report _

theorem Nests.closeInnermost (h : Nests id (id + 1) m) : Nests id (id + 1) (m.closeInnermost id) := by
  rw [LoopMatching.closeInnermost]
  split
  next hopened => exact h.close (hopened ▸ List.suffix_refl _)
  next => exact h.report _

theorem Nests.closeNamed (h : Nests id (id + 1) m) (counter : String) :
    Nests id (id + 1) (m.closeNamed id counter).1 := by
  rcases m.closeNamed_cases id counter with
    ⟨node, outer, hopened, heq⟩ | ⟨-, issue, heq | ⟨node, outer, hsuffix, heq⟩⟩
  · rw [heq]
    exact h.close (hopened ▸ List.suffix_refl _)
  · rw [heq]
    exact h.report _
  · rw [heq]
    exact (h.report _).close hsuffix

theorem Nests.closeAll (h : Nests id (id + 1) m) (counters : List String) :
    Nests id (id + 1) (m.closeAll id counters) := by
  induction counters generalizing m with
  | nil => exact h
  | cons counter rest ih =>
    rw [LoopMatching.closeAll]
    dsimp only
    split
    · exact ih (h.closeNamed counter)
    · exact h.closeNamed counter

/-- One more statement keeps the loops nested. -/
theorem Nests.step (h : Nests id id m) (s : Statement) : Nests (id + 1) (id + 1) (m.step id s) := by
  have hlater : Nests id (id + 1) m := h.mono (le_refl id) (Nat.le_succ id)
  rw [LoopMatching.step]
  split
  next => exact h.push rfl
  next => exact h.push rfl
  next => exact h.wend
  next => exact hlater.closeInnermost.mono (Nat.le_succ id) (le_refl _)
  next => exact (hlater.closeAll _).mono (Nat.le_succ id) (le_refl _)
  next => exact h.mono (Nat.le_succ id) (Nat.le_succ id)

theorem Nests.foldl_step (h : Nests now now m) {statements : List (NodeId × Statement)}
    (hids : statements.map Prod.fst = List.range' now statements.length) :
    Nests (now + statements.length) (now + statements.length)
      (statements.foldl (fun m (id, s) => m.step id s) m) := by
  induction statements generalizing now m with
  | nil => exact h
  | cons e statements ih =>
    rw [List.map_cons, List.length_cons, List.range'_succ, List.cons.injEq] at hids
    obtain ⟨rfl, hids⟩ := hids
    rw [List.foldl_cons, List.length_cons, ← Nat.add_assoc, Nat.add_right_comm]
    exact ih (h.step e.2) hids

end LoopMatching

theorem Program.nests_matchedLoops (p : Program) :
    LoopMatching.Nests p.nodeCount p.nodeCount p.matchedLoops := by
  have hids : (p.placed.map fun q => (q.id, q.statement)).map Prod.fst =
      List.range' 2 (p.placed.map fun q => (q.id, q.statement)).length := by
    rw [List.map_map, List.length_map, length_placed]
    exact p.map_id_placed
  have hempty : LoopMatching.Nests 2 2 .empty := LoopMatching.nests_empty
  have h := hempty.foldl_step hids
  rw [List.length_map, length_placed] at h
  exact ⟨h.laminar, h.wends⟩

/-- No node ends loops of both kinds. -/
theorem Program.nextNode_ne_wendNode {p : Program} {l : ForLoop} {w : WhileLoop}
    (hl : l ∈ p.matchedLoops.forLoops) (hw : w ∈ p.matchedLoops.whileLoops) :
    l.nextNode ≠ w.wendNode := by
  have hjoins := LoopMatching.joins_ofStatements (p.placed.map fun q => (q.id, q.statement))
  obtain ⟨s, c, hs, hnext, counters, rfl, -⟩ := (hjoins.forLoops l hl).2
  obtain ⟨s', c', hs', hwend, rfl⟩ := (hjoins.whileLoops w hw).2
  intro heq
  obtain ⟨q, hq, hplace⟩ := List.mem_map.1 hs
  obtain ⟨q', hq', hplace'⟩ := List.mem_map.1 hs'
  obtain ⟨hid, rfl⟩ := Prod.mk.inj hplace
  obtain ⟨hid', rfl⟩ := Prod.mk.inj hplace'
  obtain rfl : q = q' := Program.eq_of_id_eq hq hq' (hid.trans (heq.trans hid'.symm))
  rw [hnext] at hwend
  cases hwend

namespace Graph

def loopRegions (g : Graph) : List LoopRegion := LineBasic.loopRegions g.forLoops g.whileLoops

/--
The loops of a program are matched without an issue if and only if the program is well bracketed, and
they are then the pairs of brackets. In every program two loops are disjoint or nested, and each
`FOR`, `WHILE` and `WEND` belongs to at most one of them.
-/
theorem loops_bracketed (p : Program) :
    ((build p).issues = [] ↔ ∃ fors whiles, Bracketed p.loopTokens fors whiles) ∧
    (∀ fors whiles, Bracketed p.loopTokens fors whiles →
      (build p).forLoops = fors ∧ (build p).whileLoops = whiles) ∧
    ((∀ r ∈ (build p).loopRegions, r.1 < r.2) ∧
      (build p).loopRegions.Pairwise DisjointOrNested) ∧
    ((build p).loopRegions.map Prod.fst).Nodup ∧
      ((build p).whileLoops.map WhileLoop.wendNode).Nodup ∧
      ∀ l ∈ (build p).forLoops, ∀ w ∈ (build p).whileLoops, l.nextNode ≠ w.wendNode := by
  have hnests := p.nests_matchedLoops
  refine ⟨⟨fun h => ?_, ?_⟩, fun fors whiles h => ?_, ⟨fun r hr => ?_, ?_⟩, ?_, ?_, ?_⟩
  · exact ⟨_, _, p.bracketed_iff.2 ⟨h, rfl, rfl⟩⟩
  · rintro ⟨fors, whiles, h⟩
    exact (p.bracketed_iff.1 h).1
  · exact (p.bracketed_iff.1 h).2
  · exact (hnests.laminar.region r hr).1
  · exact hnests.laminar.pairwise
  · exact hnests.laminar.nodup_opening
  · exact hnests.wends.imp ne_of_lt
  · exact fun l hl w hw => Program.nextNode_ne_wendNode hl hw

end Graph
end LineBasic
