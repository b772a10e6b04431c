import Mathlib.Data.List.Perm.Subperm
import LineBasic.Proofs.Flow.CallStrings

/-!
# Reachable nodes

The search for reachable nodes takes every node from its queue once, and ends with an empty queue
before its steps are used up. So the reachable nodes are closed under edges
(`Graph.closed_reachable`) and every run stays among them (`Graph.StackRun.isReachable`).
-/

namespace LineBasic

/-! ## The search -/

section Search

variable {successors : NodeId → List NodeId} {bound : Nat} {done queue : List NodeId}
  {seen : Std.ExtTreeSet NodeId}

/-- The search so far: what was seen is done or waits, and what is done leads to nothing new. -/
structure Searched (successors : NodeId → List NodeId) (bound : Nat) (done queue : List NodeId)
    (seen : Std.ExtTreeSet NodeId) : Prop where
  mem_iff : ∀ id, id ∈ seen ↔ id ∈ done ++ queue
  nodup : (done ++ queue).Nodup
  lt : ∀ id ∈ seen, id < bound
  closed : ∀ id ∈ done, ∀ target ∈ successors id, target ∈ seen

theorem Searched.length_le (h : Searched successors bound done queue seen) :
    done.length + queue.length ≤ bound := by
  have hsub : done ++ queue ⊆ List.range bound := fun id hid =>
    List.mem_range.2 (h.lt id ((h.mem_iff id).2 hid))
  have hle := (List.Nodup.subperm h.nodup hsub).length_le
  rwa [List.length_append, List.length_range] at hle

/-- What a node leads to and has not been seen. -/
def unseen (successors : NodeId → List NodeId) (id : NodeId) (seen : Std.ExtTreeSet NodeId) :
    List NodeId :=
  ((successors id).filter fun target => !seen.contains target).eraseDups

theorem mem_unseen_iff {id target : NodeId} :
    target ∈ unseen successors id seen ↔ target ∈ successors id ∧ target ∉ seen := by
  rw [unseen, List.mem_eraseDups, List.mem_filter, Bool.not_eq_true', ← Bool.not_eq_true,
    Std.ExtTreeSet.mem_iff_contains]

theorem mem_insertMany_unseen {id target : NodeId} :
    target ∈ seen.insertMany (unseen successors id seen) ↔
      target ∈ seen ∨ target ∈ unseen successors id seen := by
  rw [Std.ExtTreeSet.mem_insertMany_list, List.contains_iff_mem]

/-- The next node is taken from the queue, and what is new there joins it. -/
theorem Searched.next {id : NodeId} (hlt : ∀ id < bound, ∀ target ∈ successors id, target < bound)
    (h : Searched successors bound done (id :: queue) seen) :
    Searched successors bound (id :: done) (queue ++ unseen successors id seen)
      (seen.insertMany (unseen successors id seen)) := by
  have hid : id ∈ seen := (h.mem_iff id).2 (List.mem_append_right _ List.mem_cons_self)
  have hperm : (id :: done ++ (queue ++ unseen successors id seen)).Perm
      (done ++ id :: queue ++ unseen successors id seen) := by
    rw [← List.append_assoc]
    exact (List.perm_middle.symm).append_right _
  refine ⟨fun target => ?_, ?_, fun target ht => ?_, fun source hsource target ht => ?_⟩
  · rw [mem_insertMany_unseen, hperm.mem_iff, List.mem_append, ← h.mem_iff]
  · rw [hperm.nodup_iff, List.nodup_append]
    refine ⟨h.nodup, nodup_eraseDups _, fun a ha b hb hab => ?_⟩
    exact (mem_unseen_iff.1 hb).2 (hab ▸ (h.mem_iff a).2 ha)
  · rcases mem_insertMany_unseen.1 ht with ht | ht
    · exact h.lt target ht
    · exact hlt id (h.lt id hid) target (mem_unseen_iff.1 ht).1
  · rw [mem_insertMany_unseen]
    rcases List.mem_cons.1 hsource with rfl | hsource
    · by_cases hseen : target ∈ seen
      · exact .inl hseen
      · exact .inr (mem_unseen_iff.2 ⟨ht, hseen⟩)
    · exact .inl (h.closed source hsource target ht)

/-- With enough steps left the search ends with an empty queue. -/
theorem Searched.closed_reach (hlt : ∀ id < bound, ∀ target ∈ successors id, target < bound)
    (n : Nat) (h : Searched successors bound done queue seen) (hn : bound ≤ n + done.length) :
    (∀ id ∈ seen, id ∈ reach successors n queue seen) ∧
      ∀ id ∈ reach successors n queue seen, ∀ target ∈ successors id,
        target ∈ reach successors n queue seen := by
  have hend (h : Searched successors bound done [] seen) : ∀ id ∈ seen, ∀ target ∈ successors id,
      target ∈ seen := fun id hid => h.closed id (by simpa using (h.mem_iff id).1 hid)
  induction n generalizing done queue seen with
  | zero =>
    have hle := h.length_le
    obtain rfl : queue = [] := List.length_eq_zero_iff.1 (by omega)
    exact ⟨fun _ hid => hid, hend h⟩
  | succ n ih =>
    cases queue with
    | nil => exact ⟨fun _ hid => hid, hend h⟩
    | cons id queue =>
      obtain ⟨hseen, hclosed⟩ := ih (h.next hlt) (by rw [List.length_cons]; omega)
        fun h id hid => h.closed id (by simpa using (h.mem_iff id).1 hid)
      exact ⟨fun id hid => hseen id (mem_insertMany_unseen.2 (.inl hid)), hclosed⟩

/-- Whatever holds where the search starts, and passes on from node to node, holds of all that it
finds. -/
theorem forall_mem_reach {P : NodeId → Prop}
    (hstep : ∀ id, P id → ∀ target ∈ successors id, P target) (n : Nat)
    (hqueue : ∀ id ∈ queue, P id) (hseen : ∀ id ∈ seen, P id) :
    ∀ id ∈ reach successors n queue seen, P id := by
  induction n generalizing queue seen with
  | zero => exact hseen
  | succ n ih =>
    cases queue with
    | nil => exact hseen
    | cons first queue =>
      rw [List.forall_mem_cons] at hqueue
      have hfresh : ∀ target ∈ unseen successors first seen, P target := fun target ht =>
        hstep first hqueue.1 target (mem_unseen_iff.1 ht).1
      refine ih (List.forall_mem_append.2 ⟨hqueue.2, hfresh⟩) fun target ht => ?_
      exact (mem_insertMany_unseen.1 ht).elim (hseen target) (hfresh target)

end Search

namespace Graph

theorem reachable_build (p : Program) : (build p).reachable =
    reach (fun id => ((build p).successors id).map Prod.fst) (build p).size [entry] {entry} := by
  show reach _ _ _ _ = reach _ _ _ _
  congr 1
  funext id
  rw [successors, node?]
  cases h : (build p).nodes[id]? with
  | none =>
    exact congrArg (fun n : Option Node => n.elim [] fun n => n.successors.map Prod.fst) h
  | some n =>
    exact congrArg (fun n : Option Node => n.elim [] fun n => n.successors.map Prod.fst) h

/-- What holds of the entry and passes along edges holds of all reachable nodes. -/
theorem isReachable_induction {p : Program} {P : NodeId → Prop} (hentry : P entry)
    (hstep : ∀ {id target kind}, P id → (target, kind) ∈ (build p).successors id → P target)
    {id : NodeId} (h : (build p).isReachable id = true) : P id := by
  rw [isReachable, reachable_build, ← Std.ExtTreeSet.mem_iff_contains] at h
  refine forall_mem_reach (fun source hs target ht => ?_) _ ?_ ?_ id h
  · obtain ⟨⟨_, kind⟩, hedge, rfl⟩ := List.mem_map.1 ht
    exact hstep hs hedge
  · exact List.forall_mem_singleton.2 hentry
  · intro other hother
    obtain rfl : entry = other := by simpa using hother
    exact hentry

theorem closed_reachable (p : Program) : (build p).isReachable entry = true ∧
    ∀ id target kind, (build p).isReachable id = true → (target, kind) ∈ (build p).successors id →
      (build p).isReachable target = true := by
  have hreach := reachable_build p
  have hlt : ∀ id < (build p).size, ∀ target ∈ ((build p).successors id).map Prod.fst,
      target < (build p).size := by
    intro id _ target ht
    obtain ⟨edge, hedge, rfl⟩ := List.mem_map.1 ht
    exact (wellFormed_build p).target_lt hedge
  have start : Searched (fun id => ((build p).successors id).map Prod.fst) (build p).size []
      [entry] {entry} :=
    { mem_iff := fun id => by
        rw [Std.ExtTreeSet.singleton_eq_insert, Std.ExtTreeSet.mem_insert, List.nil_append,
          List.mem_singleton, Std.compare_eq_iff_eq, eq_comm]
        simp
      nodup := List.nodup_singleton _
      lt := fun id hid => by
        obtain rfl : entry = id := by simpa using hid
        exact (wellFormed_build p).entry_lt
      closed := fun id hid => absurd hid List.not_mem_nil }
  obtain ⟨hseen, hclosed⟩ := start.closed_reach hlt (build p).size (Nat.le_add_right _ _)
  rw [← hreach] at hseen hclosed
  simp only [isReachable, ← Std.ExtTreeSet.mem_iff_contains]
  exact ⟨hseen entry (by simp), fun id target kind hid ht =>
    hclosed id hid target (List.mem_map.2 ⟨_, ht, rfl⟩)⟩

/-! ## Runs -/

/-- Every step goes along an edge. -/
theorem StackRun.exists_edge {g : Graph} (hg : g.WellFormed) {s t : StackState}
    {past : List StackState} (h : g.StackRun (s :: past)) (hst : g.StackStep s t) :
    ∃ kind, (t.1, kind) ∈ g.successors s.1 := by
  cases hst with
  | call ht => exact ⟨_, ht⟩
  | @giveBack id site outer hr =>
    obtain ⟨target, hcall⟩ := h.call_of_mem site List.mem_cons_self
    exact ⟨_, hg.back_of_call hr hcall⟩
  | giveUp _ ht => exact ⟨_, ht⟩
  | along _ _ ht => exact ⟨_, ht⟩

/-- A run stays among the reachable nodes. -/
theorem StackRun.isReachable {p : Program} {s : StackState} {past : List StackState}
    (h : (build p).StackRun (s :: past)) : (build p).isReachable s.1 = true := by
  obtain ⟨hentry, hclosed⟩ := closed_reachable p
  generalize hrun : s :: past = run at h
  induction h generalizing s past with
  | start =>
    obtain ⟨rfl, -⟩ := List.cons.inj hrun
    exact hentry
  | step hpast hst ih =>
    obtain ⟨rfl, -⟩ := List.cons.inj hrun
    obtain ⟨kind, hedge⟩ := StackRun.exists_edge (wellFormed_build p) hpast hst
    exact hclosed _ _ kind (ih rfl) hedge

end Graph

end LineBasic
