import Mathlib.Algebra.Order.BigOperators.Group.List
import Mathlib.Algebra.Order.Ring.Nat
import Mathlib.Data.List.Chain
import Mathlib.Logic.Relation
import LineBasic.Check.Subroutines
import LineBasic.Proofs.Flow.CallStrings
import LineBasic.Proofs.Graph.LineEntries

/-!
# Chains of calls

The calls of a subroutine are those of the nodes that control reaches from its first one without
leaving it (`Graph.mem_callsFrom_iff`). On a run, the active calls follow each other in this way, so
the lines of their subroutines are a chain of calls (`Graph.exists_callChain_of_run`).
-/

namespace LineBasic

theorem mem_withoutRepeats {α : Type} [DecidableEq α] {a : α} :
    ∀ {l : List α}, a ∈ withoutRepeats l ↔ a ∈ l
  | [] => Iff.rfl
  | [b] => Iff.rfl
  | b :: c :: rest => by
    rw [withoutRepeats]
    split
    next heq =>
      rw [mem_withoutRepeats, heq]
      simp
    next => rw [List.mem_cons, mem_withoutRepeats, ← List.mem_cons]

namespace Graph

open Relation

variable {g : Graph}

/-! ## Within a subroutine -/

/-- Control goes from a node to another one without leaving the subroutine. -/
def LocalStep (g : Graph) (id target : NodeId) : Prop :=
  ∃ n, g.node? id = some n ∧ target ∈ localSuccessors n

/-- The call is one of those along the edges of the node. -/
def CallsAt (g : Graph) (id : NodeId) (call : CallSite) : Prop :=
  ∃ n, g.node? id = some n ∧ call ∈ g.callsAt n

/-- What is found is a call at a node that can be reached from the queue. -/
theorem exists_callsAt_of_mem_callsFromQueue {call : CallSite} (n : Nat) {queue : List NodeId}
    {seen : Std.ExtTreeSet NodeId} (h : call ∈ g.callsFromQueue n queue seen) :
    ∃ start ∈ queue, ∃ id, ReflTransGen g.LocalStep start id ∧ g.CallsAt id call := by
  induction n generalizing queue seen with
  | zero => cases h
  | succ n ih =>
    cases queue with
    | nil => cases h
    | cons first queue =>
      rw [callsFromQueue] at h
      split at h
      · obtain ⟨start, hstart, hfound⟩ := ih h
        exact ⟨start, List.mem_cons_of_mem _ hstart, hfound⟩
      · split at h
        · obtain ⟨start, hstart, hfound⟩ := ih h
          exact ⟨start, List.mem_cons_of_mem _ hstart, hfound⟩
        next node hnode =>
          rcases List.mem_append.1 h with h | h
          · exact ⟨first, List.mem_cons_self, first, .refl, node, hnode, h⟩
          · obtain ⟨start, hstart, id, hreach, hcall⟩ := ih h
            rcases List.mem_append.1 hstart with hstart | hstart
            · exact ⟨start, List.mem_cons_of_mem _ hstart, id, hreach, hcall⟩
            · exact ⟨first, List.mem_cons_self, id, hreach.head ⟨node, hnode, hstart⟩, hcall⟩

/-- What nodes that have been taken lead to has been taken or waits. -/
def ClosedSearch (g : Graph) (queue : List NodeId) (seen : Std.ExtTreeSet NodeId) : Prop :=
  ∀ id ∈ seen, ∀ target, g.LocalStep id target → target ∈ seen ∨ target ∈ queue

theorem ClosedSearch.mem_or_reached {queue : List NodeId} {seen : Std.ExtTreeSet NodeId}
    (h : g.ClosedSearch queue seen) {start id : NodeId} (hstart : start ∈ seen)
    (hreach : ReflTransGen g.LocalStep start id) :
    id ∈ seen ∨ ∃ first ∈ queue, ReflTransGen g.LocalStep first id := by
  induction hreach with
  | refl => exact .inl hstart
  | @tail id target _ hstep ih =>
    rcases ih with hseen | ⟨first, hfirst, hreach⟩
    · rcases h id hseen target hstep with hseen | hwaits
      · exact .inl hseen
      · exact .inr ⟨target, hwaits, .refl⟩
    · exact .inr ⟨first, hfirst, hreach.tail hstep⟩

/-- The number of edges of the nodes that have not been taken. -/
def openEdges (g : Graph) (seen : Std.ExtTreeSet NodeId) : Nat :=
  (g.nodes.toList.map fun n => if n.id ∈ seen then 0 else n.successors.length).sum

theorem sum_openEdges_insert_le (seen : Std.ExtTreeSet NodeId) (id : NodeId) (nodes : List Node) :
    (nodes.map fun n => if n.id ∈ seen.insert id then 0 else n.successors.length).sum ≤
      (nodes.map fun n => if n.id ∈ seen then 0 else n.successors.length).sum := by
  refine List.sum_le_sum fun n _ => ?_
  by_cases hn : n.id ∈ seen
  · simp [hn]
  · rw [if_neg hn]
    split
    · exact Nat.zero_le _
    · exact Nat.le_refl _

theorem openEdges_insert_le (seen : Std.ExtTreeSet NodeId) (id : NodeId) :
    g.openEdges (seen.insert id) ≤ g.openEdges seen :=
  sum_openEdges_insert_le seen id g.nodes.toList

/-- The edges of a node that is taken are no longer open. -/
theorem openEdges_insert_add_le {seen : Std.ExtTreeSet NodeId} {n : Node} (hn : n ∈ g.nodes)
    (hseen : n.id ∉ seen) :
    g.openEdges (seen.insert n.id) + n.successors.length ≤ g.openEdges seen := by
  obtain ⟨before, after, hnodes⟩ := List.append_of_mem (Array.mem_toList_iff.2 hn)
  have hbefore := sum_openEdges_insert_le seen n.id before
  have hafter := sum_openEdges_insert_le seen n.id after
  rw [openEdges, openEdges, hnodes, List.map_append, List.map_append, List.map_cons, List.map_cons,
    List.sum_append, List.sum_append, List.sum_cons, List.sum_cons, if_neg hseen,
    if_pos Std.ExtTreeSet.mem_insert_self]
  omega

theorem length_localSuccessors_le (n : Node) : (localSuccessors n).length ≤ n.successors.length := by
  rw [localSuccessors]
  split
  · exact Nat.zero_le _
  · exact List.length_filterMap_le ..

/-- The first node of the queue waited twice. -/
theorem ClosedSearch.skip {first : NodeId} {queue : List NodeId} {seen : Std.ExtTreeSet NodeId}
    (h : g.ClosedSearch (first :: queue) seen) (hfirst : first ∈ seen) :
    g.ClosedSearch queue seen := by
  intro source hsource target hstep
  rcases h source hsource target hstep with hseen | hwaits
  · exact .inl hseen
  · rcases List.mem_cons.1 hwaits with rfl | hwaits
    · exact .inl hfirst
    · exact .inr hwaits

/-- The first node of the queue is taken, and what it leads to waits. -/
theorem ClosedSearch.take {first : NodeId} {queue more : List NodeId}
    {seen : Std.ExtTreeSet NodeId} (h : g.ClosedSearch (first :: queue) seen)
    (hmore : ∀ target, g.LocalStep first target → target ∈ more) :
    g.ClosedSearch (queue ++ more) (seen.insert first) := by
  intro source hsource target hstep
  rcases Std.ExtTreeSet.mem_insert.1 hsource with heq | hsource
  · obtain rfl := Std.LawfulEqCmp.eq_of_compare heq
    exact .inr (List.mem_append_right _ (hmore target hstep))
  · rcases h source hsource target hstep with hseen | hwaits
    · exact .inl (Std.ExtTreeSet.mem_insert.2 (.inr hseen))
    · rcases List.mem_cons.1 hwaits with rfl | hwaits
      · exact .inl Std.ExtTreeSet.mem_insert_self
      · exact .inr (List.mem_append_left _ hwaits)

/-- What the queue leads to is its first node, or is reached from what waits when that is taken. -/
theorem eq_or_reached_of_mem_cons {first start id : NodeId} {queue more : List NodeId}
    (hmore : ∀ target, g.LocalStep first target → target ∈ more) (hstart : start ∈ first :: queue)
    (hreach : ReflTransGen g.LocalStep start id) :
    id = first ∨ ∃ other ∈ queue ++ more, ReflTransGen g.LocalStep other id := by
  rcases List.mem_cons.1 hstart with rfl | hstart
  · rcases hreach.cases_head with rfl | ⟨target, hstep, hreach⟩
    · exact .inl rfl
    · exact .inr ⟨target, List.mem_append_right _ (hmore target hstep), hreach⟩
  · exact .inr ⟨start, List.mem_append_left _ hstart, hreach⟩

theorem LocalStep.mem_localSuccessors {id target : NodeId} {n : Node} (h : g.LocalStep id target)
    (hn : g.node? id = some n) : target ∈ localSuccessors n := by
  obtain ⟨m, hm, htarget⟩ := h
  rw [hn] at hm
  exact Option.some.inj hm ▸ htarget

theorem CallsAt.mem_callsAt {id : NodeId} {n : Node} {call : CallSite} (h : g.CallsAt id call)
    (hn : g.node? id = some n) : call ∈ g.callsAt n := by
  obtain ⟨m, hm, hcall⟩ := h
  rw [hn] at hm
  exact Option.some.inj hm ▸ hcall

/-- With enough steps left, the calls of every node that can be reached from the queue are found,
unless the node has been taken before. -/
theorem mem_callsFromQueue (hg : g.WellFormed) {call : CallSite} (n : Nat) {queue : List NodeId}
    {seen : Std.ExtTreeSet NodeId} (hclosed : g.ClosedSearch queue seen)
    (hn : queue.length + g.openEdges seen < n) {start id : NodeId} (hstart : start ∈ queue)
    (hreach : ReflTransGen g.LocalStep start id) (hcall : g.CallsAt id call) :
    id ∈ seen ∨ call ∈ g.callsFromQueue n queue seen := by
  induction n generalizing queue seen start with
  | zero => exact absurd hn (Nat.not_lt_zero _)
  | succ n ih =>
    cases queue with
    | nil => cases hstart
    | cons first queue =>
      rw [List.length_cons] at hn
      rw [callsFromQueue]
      split
      next htaken =>
        have htaken : first ∈ seen := htaken
        have closed := hclosed.skip htaken
        rcases List.mem_cons.1 hstart with rfl | hstart
        · rcases closed.mem_or_reached htaken hreach with hseen | ⟨other, hother, hreach⟩
          · exact .inl hseen
          · exact ih closed (by omega) hother hreach
        · exact ih closed (by omega) hstart hreach
      next hfresh =>
        have hfresh : first ∉ seen := hfresh
        -- the search goes on behind the first node, whose edges are no longer open
        have onwards {more : List NodeId}
            (hmore : ∀ target, g.LocalStep first target → target ∈ more)
            (hn : queue.length + more.length + g.openEdges (seen.insert first) < n) :
            (id = first ∨ id ∈ seen) ∨
              call ∈ g.callsFromQueue n (queue ++ more) (seen.insert first) := by
          rcases eq_or_reached_of_mem_cons hmore hstart hreach with hid | ⟨other, hother, hreach⟩
          · exact .inl (.inl hid)
          · rw [← List.length_append] at hn
            refine (ih (hclosed.take hmore) hn hother hreach).imp_left fun h => ?_
            exact (Std.ExtTreeSet.mem_insert.1 h).imp_left fun heq =>
              (Std.LawfulEqCmp.eq_of_compare heq).symm
        split
        next hnone =>
          have stuck (target : NodeId) (h : g.LocalStep first target) :
              target ∈ ([] : List NodeId) := by
            obtain ⟨m, hm, -⟩ := h
            rw [hnone] at hm
            cases hm
          have hopen := openEdges_insert_le (g := g) seen first
          rcases onwards stuck (by rw [List.length_nil]; omega) with (rfl | hseen) | hfound
          · obtain ⟨m, hm, -⟩ := hcall
            rw [hnone] at hm
            cases hm
          · exact .inl hseen
          · exact .inr (List.append_nil queue ▸ hfound)
        next node hnode =>
          have hid : node.id = first := hg.id_eq hnode
          have hopen : g.openEdges (seen.insert first) + node.successors.length ≤
              g.openEdges seen :=
            hid ▸ openEdges_insert_add_le (Array.mem_of_getElem? hnode) (hid.symm ▸ hfresh)
          have hlength := length_localSuccessors_le node
          rcases onwards (fun _ h => h.mem_localSuccessors hnode) (by omega) with
            (rfl | hseen) | hfound
          · exact .inr (List.mem_append_left _ (hcall.mem_callsAt hnode))
          · exact .inl hseen
          · exact .inr (List.mem_append_right _ hfound)

/-- The calls from a node are those of the nodes that control reaches within the subroutine. -/
theorem mem_callsFrom_iff (hg : g.WellFormed) {start : NodeId} {call : CallSite} :
    call ∈ g.callsFrom start ↔ ∃ id, ReflTransGen g.LocalStep start id ∧ g.CallsAt id call := by
  rw [callsFrom, mem_withoutRepeats]
  constructor
  · intro h
    obtain ⟨first, hfirst, hfound⟩ := exists_callsAt_of_mem_callsFromQueue _ h
    obtain rfl := List.mem_singleton.1 hfirst
    exact hfound
  · rintro ⟨id, hreach, hcall⟩
    have hbound : [start].length + g.openEdges ∅ < g.callsBound := by
      rw [openEdges, callsBound, List.length_flatMap, List.length_singleton]
      have hopen : (g.nodes.toList.map fun n =>
          if n.id ∈ (∅ : Std.ExtTreeSet NodeId) then 0 else n.successors.length) =
            g.nodes.toList.map fun n => n.successors.length := by
        simp
      rw [hopen]
      omega
    refine (mem_callsFromQueue hg _ (fun _ h => ?_) hbound (List.mem_singleton_self _) hreach
      hcall).resolve_left Std.ExtTreeSet.not_mem_empty
    exact absurd h Std.ExtTreeSet.not_mem_empty

/-! ## Chains -/

/-- The subroutine at one line calls the one at the other. -/
def Calls (g : Graph) (line target : Nat) : Prop :=
  ∃ start, g.lineEntry? line = some start ∧ ∃ call ∈ g.callsFrom start, call.target = target

/-- The main program calls the subroutine at the line. -/
def MainCalls (g : Graph) (line : Nat) : Prop := ∃ call ∈ g.callsFrom entry, call.target = line

/-- The main program calls the first of the subroutines, and each of them calls the next one. -/
def CallChain (g : Graph) : List Nat → Prop
  | [] => True
  | first :: rest => g.MainCalls first ∧ List.IsChain g.Calls (first :: rest)

/-- The node that a call leads to is where its line is entered. -/
def CallsResolve (g : Graph) : Prop :=
  ∀ id target, (target, .call) ∈ g.successors id → g.lineEntry? (g.lineOf target) = some target

/-- A step of a run that stops at a `RETURN` without a call to return to. -/
def StrictStep (g : Graph) (s t : StackState) : Prop :=
  g.StackStep s t ∧ (g.ReturnAt s.1 → s.2 ≠ [])

/-- The node is in the innermost of the active subroutines, the lines of which are listed with the
innermost first, and each call is in the subroutine before. -/
inductive Nested (g : Graph) : NodeId → List NodeId → List Nat → Prop
  | main {id : NodeId} : ReflTransGen g.LocalStep entry id → Nested g id [] []
  | call {site target id : NodeId} {outer : List NodeId} {lines : List Nat} :
    Nested g site outer lines → (target, .call) ∈ g.successors site →
      ReflTransGen g.LocalStep target id → Nested g id (site :: outer) (g.lineOf target :: lines)

section Chains

variable {id target : NodeId} {stack : List NodeId} {lines : List Nat}

theorem Nested.local (h : g.Nested id stack lines) (hstep : g.LocalStep id target) :
    g.Nested target stack lines := by
  cases h with
  | main hreach => exact .main (hreach.tail hstep)
  | call hsite hcall hreach => exact .call hsite hcall (hreach.tail hstep)

theorem Nested.length_eq (h : g.Nested id stack lines) : lines.length = stack.length := by
  induction h with
  | main => rfl
  | call _ _ _ ih => rw [List.length_cons, List.length_cons, ih]

theorem callsAt_of_mem_successors (h : (target, .call) ∈ g.successors id) :
    ∃ call, g.CallsAt id call ∧ call.target = g.lineOf target := by
  rw [successors] at h
  rcases hn : g.node? id with _ | n
  · rw [hn] at h
    cases h
  · rw [hn] at h
    exact ⟨⟨n.line, g.lineOf target⟩, ⟨n, hn, List.mem_filterMap.2 ⟨_, h, if_pos rfl⟩⟩, rfl⟩

/-- The lines of the active subroutines, the outermost first, are a chain of calls. -/
theorem Nested.callChain (hg : g.WellFormed) (hcalls : g.CallsResolve)
    (h : g.Nested id stack lines) : g.CallChain lines.reverse := by
  induction h with
  | main => trivial
  | @call site target id outer lines hsite hcall hreach ih =>
    obtain ⟨call, hcallsAt, htarget⟩ := callsAt_of_mem_successors hcall
    cases hsite with
    | main hsite =>
      have called : call ∈ g.callsFrom entry := (mem_callsFrom_iff hg).2 ⟨site, hsite, hcallsAt⟩
      exact ⟨⟨call, called, htarget⟩, .singleton _⟩
    | @call site' target' _ outer' lines' hsite' hcall' hreach' =>
      have called : call ∈ g.callsFrom target' := (mem_callsFrom_iff hg).2 ⟨site, hreach', hcallsAt⟩
      have hcalled : g.Calls (g.lineOf target') (g.lineOf target) :=
        ⟨target', hcalls _ _ hcall', call, called, htarget⟩
      rw [List.reverse_cons]
      obtain ⟨first, rest, hlines⟩ :=
        List.exists_cons_of_ne_nil (mt List.reverse_eq_nil_iff.1 (List.cons_ne_nil _ lines'))
      rw [hlines] at ih ⊢
      refine ⟨ih.1, List.isChain_append.2 ⟨ih.2, .singleton _, fun a ha b hb => ?_⟩⟩
      rw [← hlines, List.getLast?_reverse] at ha
      obtain rfl := Option.some.inj ha
      obtain rfl := Option.some.inj hb
      exact hcalled

end Chains

/-! ## Runs -/

section Runs

variable {p : Program}

/-- Within a subroutine, control goes along edges, and from a call to what follows it. -/
theorem localStep_of_mem {g : Graph} {id target goal : NodeId} {kind : EdgeKind}
    (hgoal : (match kind with
      | .call => some (g.next id)
      | .back => none
      | _ => some target) = some goal)
    (hreturn : ¬ g.ReturnAt id) (h : (target, kind) ∈ g.successors id) : g.LocalStep id goal := by
  rw [successors] at h
  rcases hn : g.node? id with _ | n
  · rw [hn] at h
    cases h
  · rw [hn] at h
    rw [next, hn] at hgoal
    refine ⟨n, hn, ?_⟩
    unfold localSuccessors
    split
    next hc => exact absurd ⟨n, hn, hc⟩ hreturn
    next => exact List.mem_filterMap.2 ⟨_, h, hgoal⟩

/-- A step of a run stays in the innermost subroutine, enters another, or goes back to the one
before. -/
theorem Nested.step {s t : StackState} {lines : List Nat} (h : (build p).Nested s.1 s.2 lines)
    (hst : (build p).StrictStep s t) : ∃ lines', (build p).Nested t.1 t.2 lines' := by
  obtain ⟨hst, hstrict⟩ := hst
  have hg := wellFormed_build p
  cases hst with
  | call ht => exact ⟨_, .call h ht .refl⟩
  | @giveBack id site outer hr =>
    cases h with
    | call hsite hcall _ =>
      have hreturn : ¬ (build p).ReturnAt site := fun hr => nomatch hg.kind_of_return hr hcall
      exact ⟨_, hsite.local (localStep_of_mem rfl hreturn hcall)⟩
  | giveUp hr _ => exact absurd rfl (hstrict hr)
  | @along id target kind stack hr hkind ht =>
    refine ⟨lines, h.local (localStep_of_mem ?_ hr ht)⟩
    have hback : kind ≠ .back := by
      rintro rfl
      obtain ⟨q, hq, rfl, hreturns⟩ := Program.returns_of_mem_edges (mem_successors_build_iff.1 ht) rfl
      exact hr (returnAt_build_iff.2 ⟨q, hq, rfl, hreturns⟩)
    split
    · exact absurd rfl hkind
    · exact absurd rfl hback
    · rfl

/-- On every run that stops at a `RETURN` without a call, there is a chain of calls as long as the
stack. -/
theorem exists_callChain_of_run (hcalls : (build p).CallsResolve) {run : List StackState}
    (h : History (build p).StrictStep (entry, []) run) :
    ∀ s ∈ run, ∃ chain, (build p).CallChain chain ∧ chain.length = s.2.length := by
  have nested : ∀ s ∈ run, ∃ lines, (build p).Nested s.1 s.2 lines := by
    induction h with
    | start => exact List.forall_mem_singleton.2 ⟨[], .main .refl⟩
    | step _ hst ih =>
      obtain ⟨lines, hs⟩ := ih _ List.mem_cons_self
      exact List.forall_mem_cons.2 ⟨hs.step hst, ih⟩
  intro s hs
  obtain ⟨lines, hlines⟩ := nested s hs
  refine ⟨lines.reverse, hlines.callChain (wellFormed_build p) hcalls, ?_⟩
  rw [List.length_reverse, hlines.length_eq]

end Runs

end Graph

/-! ## Calls that lead to statements -/

/-- Every line that a `GOSUB` or an `ON GOSUB` of the program calls is there, and a statement is on
it or on a later line. -/
def Program.ResolvesCalls (p : Program) : Prop :=
  ∀ s ∈ p.allStatements, ∀ c, s.command? = some c → ∀ line ∈ c.calledLines,
    p.edgeContext.entryOf line ≠ Graph.exit

theorem Program.callsResolve {p : Program} (h : p.IsNumbered) (hcalls : p.ResolvesCalls) :
    (Graph.build p).CallsResolve := by
  intro id target ht
  obtain ⟨q, hq, -, c, hc, line, hline, rfl⟩ :=
    Program.calledLine_of_mem_edges (Graph.mem_successors_build_iff.1 ht) rfl
  have hmem : q.statement ∈ p.allStatements := by
    rw [allStatements, occurrences, occurrencesOfList_eq 2 Graph.exit 0, List.map_map]
    exact List.mem_map_of_mem hq
  have hne := hcalls q.statement hmem c hc line hline
  obtain ⟨hpos, hlt⟩ := isTarget_entryOf (p := p) line
  have htwo : 2 ≤ p.edgeContext.entryOf line :=
    Nat.lt_of_le_of_ne hpos (Ne.symm hne)
  obtain ⟨q', hq', hid⟩ := p.exists_mem_placed htwo hlt
  rw [← hid]
  exact h.lineEntry?_of_entryOf hq' hid.symm

end LineBasic
