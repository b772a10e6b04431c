import Mathlib.Data.List.Forall2
import LineBasic.Flow.Solver
import LineBasic.Proofs.Graph.WellFormed

/-!
# Call strings and stacks

A run of a program keeps the active calls on a stack without a bound. The analyses remember the
innermost of them only, and a `RETURN` that has none left goes to every place after a call. Every
run is followed by a path under such call strings (`Graph.StackRun.exists_contextPath`), and a path
that forgets no call is a run.
-/

namespace LineBasic

/-- The states of a run that begins at `start`, the latest first. -/
inductive History {α : Type} (step : α → α → Prop) (start : α) : List α → Prop
  | start : History step start [start]
  | step {s t : α} {past : List α} :
    History step start (s :: past) → step s t → History step start (t :: s :: past)

section History

variable {α β : Type} {step : α → α → Prop} {start : α}

theorem History.of_cons_cons {s t : α} {past : List α} (h : History step start (t :: s :: past)) :
    History step start (s :: past) ∧ step s t := by
  cases h with
  | step h hst => exact ⟨h, hst⟩

theorem History.map {step' : β → β → Prop} {f : α → β} {path : List α}
    (h : History step start path) (hf : ∀ {s t}, step s t → step' (f s) (f t)) :
    History step' (f start) (path.map f) := by
  induction h with
  | start => exact .start
  | step _ hst ih => exact ih.step (hf hst)

/-- The first state of a history that satisfies `P`. -/
theorem History.exists_first {P : α → Prop} {path : List α} (h : History step start path) {d : α}
    (hd : d ∈ path) (hP : P d) :
    ∃ s past, P s ∧ History step start (s :: past) ∧ ∀ d ∈ past, ¬ P d := by
  induction h generalizing d with
  | start =>
    obtain rfl := List.mem_singleton.1 hd
    exact ⟨d, [], hP, .start, List.forall_mem_nil _⟩
  | @step s t past hpast hst ih =>
    by_cases hearlier : ∃ d ∈ s :: past, P d
    · obtain ⟨d, hd, hP⟩ := hearlier
      exact ih hd hP
    · have hlate : ∀ d ∈ s :: past, ¬ P d := fun d hd hP => hearlier ⟨d, hd, hP⟩
      obtain rfl := (List.mem_cons.1 hd).resolve_right fun hd => hlate d hd hP
      exact ⟨d, s :: past, hP, hpast.step hst, hlate⟩

end History

namespace Graph

/-- A node with all active calls, the innermost first. -/
abbrev StackState := NodeId × List NodeId

/-- The steps of a run: calls push their node, and a `RETURN` goes on after the node it pops. -/
inductive StackStep (g : Graph) : StackState → StackState → Prop
  | call {id target : NodeId} {stack : List NodeId} :
    (target, .call) ∈ g.successors id → StackStep g (id, stack) (target, id :: stack)
  | giveBack {id site : NodeId} {outer : List NodeId} :
    g.ReturnAt id → StackStep g (id, site :: outer) (g.next site, outer)
  | giveUp {id target : NodeId} :
    g.ReturnAt id → (target, .back) ∈ g.successors id → StackStep g (id, []) (target, [])
  | along {id target : NodeId} {kind : EdgeKind} {stack : List NodeId} :
    ¬ g.ReturnAt id → kind ≠ .call → (target, kind) ∈ g.successors id →
      StackStep g (id, stack) (target, stack)

/-- A run from the entry, with nothing on the stack. -/
abbrev StackRun (g : Graph) : List StackState → Prop := History g.StackStep (entry, [])

def ContextStep (g : Graph) (c d : ContextNode) : Prop := d ∈ g.contextSuccessors c

/-- A path under call strings from the entry, with no call active. -/
abbrev ContextPath (g : Graph) : List ContextNode → Prop := History g.ContextStep (entry, [])

/-- A step under call strings that forgets no call. -/
def FaithfulStep (g : Graph) (c d : ContextNode) : Prop :=
  ∃ kind, (kind, d) ∈ g.contextSteps c ∧ (kind = .call → c.2.length < callStringLimit)

/-- The call string holds the innermost calls on the stack, no more than are remembered. -/
def Follows (s : StackState) (c : ContextNode) : Prop :=
  c.1 = s.1 ∧ c.2 <+: s.2 ∧ c.2.length ≤ callStringLimit

/-! ## Steps under a call string -/

section Steps

variable {g : Graph} {id : NodeId} {calls : CallString}

theorem contextSteps_return {site : NodeId} {outer : CallString} (h : g.ReturnAt id) :
    g.contextSteps (id, site :: outer) = [(.back, g.next site, outer)] := by
  obtain ⟨n, hn, hc⟩ := h
  simp [contextSteps, hn, hc]

/-- Without a call to return to, a step goes along an edge. -/
theorem mem_contextSteps (h : g.ReturnAt id → calls = []) {kind : EdgeKind} {d : ContextNode} :
    (kind, d) ∈ g.contextSteps (id, calls) ↔
      (d.1, kind) ∈ g.successors id ∧
        d.2 = if kind = .call then (id :: calls).take callStringLimit else calls := by
  rcases hn : g.node? id with _ | n
  · simp [contextSteps, successors, hn]
  · have steps : g.contextSteps (id, calls) = n.successors.map fun e =>
        (e.2, e.1, if e.2 = .call then (id :: calls).take callStringLimit else calls) := by
      simp only [contextSteps, hn]
      split
      next hc =>
        cases h ⟨n, hn, hc⟩
      next => rfl
    rw [steps, successors, hn]
    obtain ⟨target, d⟩ := d
    simp only [List.mem_map, Prod.mk.injEq, Option.elim_some]
    constructor
    · rintro ⟨⟨t, k⟩, ht, rfl, rfl, rfl⟩
      exact ⟨ht, rfl⟩
    · rintro ⟨ht, rfl⟩
      exact ⟨_, ht, rfl, rfl, rfl⟩

theorem contextStep_iff {c d : ContextNode} :
    g.ContextStep c d ↔ ∃ kind, (kind, d) ∈ g.contextSteps c := by
  simp [ContextStep, contextSuccessors]

/-- Without a call to return to, every edge is a step. -/
theorem contextStep_of_mem (h : g.ReturnAt id → calls = []) {kind : EdgeKind} {target : NodeId}
    (ht : (target, kind) ∈ g.successors id) :
    g.ContextStep (id, calls)
      (target, if kind = .call then (id :: calls).take callStringLimit else calls) :=
  contextStep_iff.2 ⟨kind, (mem_contextSteps h).2 ⟨ht, rfl⟩⟩

/-- A `RETURN` goes back to the innermost call. -/
theorem contextStep_return {site : NodeId} {outer : CallString} (h : g.ReturnAt id) :
    g.ContextStep (id, site :: outer) (g.next site, outer) :=
  contextStep_iff.2 ⟨.back, by rw [contextSteps_return h]; exact List.mem_singleton_self _⟩

/-- A step is a `RETURN` to the innermost call, or it goes along an edge. -/
theorem ContextStep.return_or_edge {d : ContextNode} (h : g.ContextStep (id, calls) d) :
    (∃ site outer, g.ReturnAt id ∧ calls = site :: outer ∧ d = (g.next site, outer)) ∨
      (g.ReturnAt id → calls = []) ∧ ∃ kind, (d.1, kind) ∈ g.successors id ∧
        d.2 = if kind = .call then (id :: calls).take callStringLimit else calls := by
  obtain ⟨kind, hd⟩ := contextStep_iff.1 h
  by_cases hr : g.ReturnAt id ∧ calls ≠ []
  · obtain ⟨hr, hne⟩ := hr
    obtain ⟨site, outer, rfl⟩ := List.exists_cons_of_ne_nil hne
    rw [contextSteps_return hr, List.mem_singleton] at hd
    exact .inl ⟨site, outer, hr, rfl, congrArg Prod.snd hd⟩
  · have hr' : g.ReturnAt id → calls = [] := fun h => by_contra fun hne => hr ⟨h, hne⟩
    exact .inr ⟨hr', kind, (mem_contextSteps hr').1 hd⟩

theorem FaithfulStep.contextStep {c d : ContextNode} (h : g.FaithfulStep c d) :
    g.ContextStep c d :=
  contextStep_iff.2 <| h.imp fun _ => And.left

end Steps

/-! ## Stacks are followed by call strings -/

variable {g : Graph} {s t : StackState} {c : ContextNode}

theorem Follows.step (h : Follows s c) (hg : g.WellFormed) (hst : g.StackStep s t)
    (hs : ∀ site ∈ s.2, ∃ target, (target, .call) ∈ g.successors site) :
    ∃ d, g.ContextStep c d ∧ Follows t d := by
  obtain ⟨id, calls⟩ := c
  obtain ⟨rfl, hprefix, hlength⟩ := h
  cases hst with
  | @call id target stack ht =>
    have hid : ¬ g.ReturnAt id := fun hr => nomatch hg.kind_of_return hr ht
    have hstep : g.ContextStep (id, calls) (target, (id :: calls).take callStringLimit) :=
      contextStep_of_mem (fun hr => absurd hr hid) ht
    refine ⟨_, hstep, rfl, ?_, ?_⟩
    · exact (List.take_prefix ..).trans ((List.prefix_cons_inj id).2 hprefix)
    · exact List.length_take_le ..
  | @giveBack id site outer hr =>
    match calls, hprefix, hlength with
    | [], _, _ =>
      -- The site is forgotten, but its fallthrough is among the places that a `RETURN` goes to.
      obtain ⟨target, hcall⟩ := hs site List.mem_cons_self
      have hstep : g.ContextStep (id, []) (g.next site, []) :=
        contextStep_of_mem (fun _ => rfl) (hg.back_of_call hr hcall)
      exact ⟨_, hstep, rfl, List.nil_prefix, Nat.zero_le _⟩
    | site' :: calls, hprefix, hlength =>
      obtain ⟨rfl, houter⟩ := List.cons_prefix_cons.1 hprefix
      exact ⟨_, contextStep_return hr, rfl, houter, Nat.le_of_succ_le hlength⟩
  | @giveUp id target hr ht =>
    obtain rfl : calls = [] := List.prefix_nil.1 hprefix
    have hstep : g.ContextStep (id, []) (target, []) := contextStep_of_mem (fun _ => rfl) ht
    exact ⟨_, hstep, rfl, hprefix, hlength⟩
  | @along id target kind stack hid hkind ht =>
    have hreturn : g.ReturnAt id → calls = [] := fun hr => absurd hr hid
    have hstep := contextStep_of_mem hreturn ht
    rw [if_neg hkind] at hstep
    exact ⟨_, hstep, rfl, hprefix, hlength⟩

/-- An edge of another kind than a call and a return is a step that leaves the stack alone. -/
theorem stackStep_of_mem (hg : g.WellFormed) {id target : NodeId} {kind : EdgeKind}
    (h : (target, kind) ∈ g.successors id) (hcall : kind ≠ .call) (hback : kind ≠ .back)
    (stack : List NodeId) : g.StackStep (id, stack) (target, stack) :=
  .along (fun hr => hback (hg.kind_of_return hr h)) hcall h

theorem stackStep_of_normal (p : Program) {id target : NodeId}
    (h : (target, .normal) ∈ (build p).successors id) (stack : List NodeId) :
    (build p).StackStep (id, stack) (target, stack) :=
  stackStep_of_mem (wellFormed_build p) h (by decide) (by decide) stack

/-- What is on the stack has been called from. -/
theorem StackStep.call_of_mem (hst : g.StackStep s t)
    (hs : ∀ site ∈ s.2, ∃ target, (target, .call) ∈ g.successors site) :
    ∀ site ∈ t.2, ∃ target, (target, .call) ∈ g.successors site := by
  cases hst with
  | call ht => exact List.forall_mem_cons.2 ⟨⟨_, ht⟩, hs⟩
  | giveBack => exact (List.forall_mem_cons.1 hs).2
  | giveUp => exact hs
  | along => exact hs

theorem StackRun.call_of_mem {past : List StackState} (h : g.StackRun (s :: past)) :
    ∀ site ∈ s.2, ∃ target, (target, .call) ∈ g.successors site := by
  generalize hrun : s :: past = run at h
  induction h generalizing s past with
  | start =>
    obtain ⟨rfl, -⟩ := List.cons.inj hrun
    exact List.forall_mem_nil _
  | step _ hst ih =>
    obtain ⟨rfl, -⟩ := List.cons.inj hrun
    exact hst.call_of_mem (ih rfl)

/-- A run is followed by a path under call strings, state by state. -/
theorem StackRun.exists_contextPath (hg : g.WellFormed) {run : List StackState}
    (h : g.StackRun run) : ∃ path, g.ContextPath path ∧ List.Forall₂ Follows run path := by
  induction h with
  | start =>
    exact ⟨_, .start, .cons ⟨rfl, List.prefix_rfl, Nat.zero_le _⟩ .nil⟩
  | step hrun hst ih =>
    obtain ⟨path, hpath, hfollow⟩ := ih
    cases hfollow with
    | cons hs hpast =>
      obtain ⟨d, hd, ht⟩ := hs.step hg hst (StackRun.call_of_mem hrun)
      exact ⟨_, hpath.step hd, .cons ht (.cons hs hpast)⟩

theorem map_fst_of_follows {run : List StackState} {path : List ContextNode}
    (h : List.Forall₂ Follows run path) : run.map Prod.fst = path.map Prod.fst := by
  induction h with
  | nil => rfl
  | cons hs _ ih => rw [List.map_cons, List.map_cons, hs.1, ih]

/-- The nodes of a run to a node are those of a path to it. -/
theorem StackRun.exists_contextPath_to (hg : g.WellFormed) {id : NodeId} {stack : List NodeId}
    {past : List StackState} (h : g.StackRun ((id, stack) :: past)) :
    ∃ calls past', g.ContextPath ((id, calls) :: past') ∧
      past.map Prod.fst = past'.map Prod.fst := by
  obtain ⟨path, hpath, hfollow⟩ := h.exists_contextPath hg
  cases hfollow with
  | @cons _ c _ past' hs hpast =>
    obtain ⟨id', calls⟩ := c
    obtain rfl : id' = id := hs.1
    exact ⟨calls, past', hpath, map_fst_of_follows hpast⟩

/-! ## Call strings that forget nothing are stacks -/

theorem FaithfulStep.stackStep (hg : g.WellFormed) {c d : ContextNode} (h : g.FaithfulStep c d) :
    g.StackStep c d := by
  obtain ⟨id, calls⟩ := c
  obtain ⟨target, outer⟩ := d
  obtain ⟨kind, hmem, hlength⟩ := h
  by_cases hr : g.ReturnAt id
  · match calls, hmem with
    | [], hmem =>
      obtain ⟨ht, hcalls⟩ := (mem_contextSteps fun _ => rfl).1 hmem
      obtain rfl := hg.kind_of_return hr ht
      obtain rfl : outer = [] := by simpa using hcalls
      exact .giveUp hr ht
    | site :: calls, hmem =>
      rw [contextSteps_return hr, List.mem_singleton] at hmem
      cases hmem
      exact .giveBack hr
  · obtain ⟨ht, hcalls⟩ := (mem_contextSteps fun h => absurd h hr).1 hmem
    by_cases hkind : kind = .call
    · obtain rfl := hkind
      have hlt := hlength rfl
      obtain rfl : outer = id :: calls := by
        exact hcalls.trans (List.take_of_length_le (Nat.succ_le_of_lt hlt))
      exact .call ht
    · obtain rfl : outer = calls := hcalls.trans (if_neg hkind)
      exact .along hr hkind ht

/--
Every run of a program is followed by a path under call strings that hold the innermost part of its
stack, and a path on which no call is forgotten is a run whose stacks are the call strings.
-/
theorem callStrings_simulate_stacks (p : Program) :
    (∀ run, (build p).StackRun run →
      ∃ path, (build p).ContextPath path ∧ List.Forall₂ Follows run path) ∧
    ∀ path, History (build p).FaithfulStep (entry, []) path →
      (build p).ContextPath path ∧ (build p).StackRun path := by
  refine ⟨fun run h => h.exists_contextPath (wellFormed_build p), fun path h => ⟨?_, ?_⟩⟩
  · exact List.map_id path ▸ h.map FaithfulStep.contextStep
  · exact List.map_id path ▸ h.map (FaithfulStep.stackStep (wellFormed_build p))

/-- A `GOSUB` to a line with a `RETURN`, and an `END` between them. -/
def subroutineProgram : Program :=
  ⟨[⟨10, [.command ⟨10, 4⟩ (.gosub 30)], 1⟩, ⟨20, [.command ⟨20, 4⟩ .endRun], 2⟩,
    ⟨30, [.command ⟨30, 4⟩ .returnSub], 3⟩]⟩

theorem exists_contextPath_subroutine :
    (build subroutineProgram).StackRun [(3, []), (4, [2]), (2, []), (entry, [])] ∧
      ∃ path, (build subroutineProgram).ContextPath path ∧
        List.Forall₂ Follows [(3, []), (4, [2]), (2, []), (entry, [])] path := by
  have start : (build subroutineProgram).StackStep (entry, []) (2, []) :=
    stackStep_of_normal subroutineProgram (by decide +kernel) []
  have call : (build subroutineProgram).StackStep (2, []) (4, [2]) := .call (by decide +kernel)
  have back : (build subroutineProgram).StackStep (4, [2]) (3, []) :=
    @StackStep.giveBack _ 4 2 [] ⟨_, rfl, rfl⟩
  have run := ((History.start.step start).step call).step back
  exact ⟨run, (callStrings_simulate_stacks subroutineProgram).1 _ run⟩

end Graph
end LineBasic
