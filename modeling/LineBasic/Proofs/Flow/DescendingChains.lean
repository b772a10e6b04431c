import LineBasic.Proofs.Flow.AvailableExpressions
import LineBasic.Proofs.Flow.DefiniteAssignment
import LineBasic.Proofs.Flow.ReachingDefinitions

/-!
# The iteration settles

The iteration ends for every analysis without infinite descending chains of facts, also if the
number of changes has no bound and transfers are not monotone. The facts of a node under a call
string form a descending chain, so each of them stops changing (`exists_forall_ge_eq`). There are
finitely many nodes under call strings, so from some visit on no fact changes at all
(`exists_forall_ge_inputs_eq`), and every further visit only takes its node from the queue.
-/

namespace LineBasic

/-- Nothing leads back to the entry. -/
theorem Graph.WellFormed.entry_lt_of_contextStep {g : Graph} (hg : g.WellFormed)
    {c d : ContextNode} (h : g.ContextStep c d) : Graph.entry < d.1 := by
  obtain ⟨id, calls⟩ := c
  rcases h.return_or_edge with ⟨site, outer, -, -, rfl⟩ | ⟨-, kind, ht, -⟩
  · exact hg.entry_lt_next site
  · exact hg.entry_lt_target ht

namespace ForwardAnalysis

variable {φ : Type} {a : ForwardAnalysis φ} {g : Graph} {Valid : φ → Prop}

/-- No sequence of valid facts descends strictly for ever. -/
def ChainsEnd (a : ForwardAnalysis φ) (Valid : φ → Prop) : Prop :=
  ∀ chain : Nat → φ, (∀ i, Valid (chain i)) →
    ¬ ∀ i, a.Below (chain (i + 1)) (chain i) ∧ chain (i + 1) ≠ chain i

/--
The iteration is over: the entry has the fact it started with, and whatever has a fact passes it on
to all nodes after it, which claim no more than that.
-/
structure Settled (a : ForwardAnalysis φ) (g : Graph) (s : SolverState φ) : Prop where
  queue : s.queue = []
  entry : s.inputs[((Graph.entry, []) : ContextNode)]? = some a.atEntry
  step : ∀ {k t : ContextNode} {I : φ}, s.inputs[k]? = some I → t ∈ g.contextSuccessors k →
    ∃ J, s.inputs[t]? = some J ∧ a.meet J (a.transfer k.1 I) = J

/-- After some number of visits the iteration is over, and no more visits change anything. -/
def Settles [BEq φ] (a : ForwardAnalysis φ) (g : Graph) : Prop :=
  ∃ n, a.Settled g (a.iterate g n a.start) ∧
    ∀ m, n ≤ m → a.iterate g m a.start = a.iterate g n a.start

/-- The entry keeps its fact, since nothing flows into it. -/
theorem kept_atEntry (ha : a.Lawful) (hg : g.WellFormed) :
    a.Kept g fun k I => k.1 = Graph.entry → I = a.atEntry where
  entry := fun _ => rfl
  step := fun _ hkt hentry => absurd hentry (Nat.ne_of_gt (hg.entry_lt_of_contextStep hkt))
  meet := fun hI hJ hentry => by rw [hI hentry, hJ hentry, ha.self]

/-! ## A descending sequence of facts stops changing -/

/-- The later fact is known if the earlier one is, and claims no more. -/
def Descends (a : ForwardAnalysis φ) (earlier later : Option φ) : Prop :=
  ∀ I, earlier = some I → ∃ J, later = some J ∧ a.Below J I

theorem Descends.refl (ha : a.Lawful) (fact : Option φ) : a.Descends fact fact :=
  fun I h => ⟨I, h, .refl ha I⟩

theorem Descends.trans (ha : a.Lawful) {x y z : Option φ} (hxy : a.Descends x y)
    (hyz : a.Descends y z) : a.Descends x z := by
  intro I hI
  obtain ⟨J, hJ, hJI⟩ := hxy I hI
  obtain ⟨K, hK, hKJ⟩ := hyz J hJ
  exact ⟨K, hK, hKJ.trans ha hJI⟩

theorem Below.antisymm (ha : a.Lawful) {x y : φ} (hxy : a.Below x y) (hyx : a.Below y x) :
    x = y :=
  calc x = a.meet x y := hxy.symm
    _ = a.meet y x := ha.comm x y
    _ = y := hyx

/-- If chains end, then a descending sequence of valid facts changes finitely often. -/
theorem ChainsEnd.exists_forall_ge_eq (h : a.ChainsEnd Valid) {facts : Nat → Option φ}
    (hdescends : ∀ m n, m ≤ n → a.Descends (facts m) (facts n))
    (hvalid : ∀ n, ∀ I ∈ facts n, Valid I) : ∃ N, ∀ n, N ≤ n → facts n = facts N := by
  by_contra hchanges
  push Not at hchanges
  choose later hlater hne using hchanges
  -- the sequence at the places where it changes, from one on at which there is a fact
  obtain ⟨start, first, hfirst⟩ : ∃ start first, facts start = some first := by
    rcases h0 : facts 0 with _ | I
    · obtain ⟨I, hI⟩ := Option.ne_none_iff_exists'.1 (h0 ▸ hne 0)
      exact ⟨later 0, I, hI⟩
    · exact ⟨0, I, h0⟩
  let place (i : Nat) : Nat := later^[i] start
  have place_succ (i : Nat) : place (i + 1) = later (place i) :=
    Function.iterate_succ_apply' later i start
  have start_le (i : Nat) : start ≤ place i := by
    induction i with
    | zero => exact Nat.le_refl start
    | succ i ih => exact Nat.le_trans ih (place_succ i ▸ hlater (place i))
  have known (i : Nat) : ∃ I, facts (place i) = some I := by
    obtain ⟨I, hI, -⟩ := hdescends start (place i) (start_le i) first hfirst
    exact ⟨I, hI⟩
  choose chain hchain using known
  refine h chain (fun i => hvalid _ _ (hchain i)) fun i => ⟨?_, fun heq => ?_⟩
  · have hle : place i ≤ place (i + 1) := place_succ i ▸ hlater (place i)
    obtain ⟨J, hJ, hbelow⟩ := hdescends _ _ hle _ (hchain i)
    obtain rfl : chain (i + 1) = J := Option.some.inj ((hchain (i + 1)).symm.trans hJ)
    exact hbelow
  · refine hne (place i) ?_
    rw [← place_succ, hchain, hchain, heq]

/-! ## Visits lower the facts -/

variable [BEq φ] {s : SolverState φ} {key : ContextNode}

omit [BEq φ] in
theorem Flowed.descends {s s' : SolverState φ} (h : a.Flowed s s') (k : ContextNode) :
    a.Descends s.inputs[k]? s'.inputs[k]? :=
  fun _ hI => h.inputs hI

theorem iterate_of_queue_eq_nil (h : s.queue = []) (n : Nat) : a.iterate g n s = s := by
  cases n with
  | zero => rfl
  | succ n =>
    rw [iterate]
    split
    · rfl
    next hqueue =>
      rw [h] at hqueue
      cases hqueue

theorem iterate_add (m n : Nat) (s : SolverState φ) :
    a.iterate g (m + n) s = a.iterate g n (a.iterate g m s) := by
  induction m generalizing s with
  | zero => rw [Nat.zero_add, iterate]
  | succ m ih =>
    rw [Nat.succ_add, iterate, iterate]
    split
    next hqueue => rw [iterate_of_queue_eq_nil hqueue]
    · exact ih _

variable [LawfulBEq φ]

theorem descends_visit (ha : a.Lawful) (s : SolverState φ) (key k : ContextNode) :
    a.Descends s.inputs[k]? (a.visit g key s).inputs[k]? := by
  let Q (s' : SolverState φ) : Prop := a.Descends s.inputs[k]? s'.inputs[k]?
  have hvisit : Q (a.visit g key s) := by
    refine visit_of_flow (fun hs => hs) (Descends.refl ha _) fun {input s' t} _ _ hs' => ?_
    exact hs'.trans ha ((flowed_flow ha (a.transfer key.1 input) s' t).descends k)
  exact hvisit

theorem descends_iterate (ha : a.Lawful) (n : Nat) (s : SolverState φ) (k : ContextNode) :
    a.Descends s.inputs[k]? (a.iterate g n s).inputs[k]? := by
  induction n generalizing s with
  | zero => exact .refl ha _
  | succ n ih =>
    rw [iterate]
    split
    · exact .refl ha _
    next key rest _ =>
      exact (descends_visit ha { s with queue := rest } key k).trans ha (ih _)

/-- What flows without changing a fact at the end has changed nothing on the way. -/
theorem foldl_flow_eq_self (ha : a.Lawful) (output : φ) (targets : List ContextNode)
    (h : ∀ k : ContextNode, (targets.foldl (a.flow output) s).inputs[k]? = s.inputs[k]?) :
    targets.foldl (a.flow output) s = s := by
  induction targets generalizing s with
  | nil => rfl
  | cons target targets ih =>
    rw [List.foldl_cons] at h ⊢
    have hrest := (foldl_flow ha output targets (a.flow output s target)).1
    obtain ⟨merged, hmerged, ⟨-, heq⟩ | ⟨hne, heq⟩⟩ := flow_eq a output s target
    · rw [heq] at h ⊢
      exact ih h
    · -- the fact of the target would have gone down and come up again
      exfalso
      have hflow : (a.flow output s target).inputs[target]? = some merged := by simp [heq]
      obtain ⟨final, hfinal, hbelow⟩ := hrest.descends target merged hflow
      have hold : s.inputs[target]? = some final := (h target).symm.trans hfinal
      rw [hold, Option.elim_some] at hmerged
      have hmerged_below : a.Below merged final := hmerged ▸ meet_below_left ha final output
      rw [hold, hbelow.antisymm ha hmerged_below] at hne
      exact hne rfl

theorem queue_visit_eq (ha : a.Lawful)
    (h : ∀ k : ContextNode, (a.visit g key s).inputs[k]? = s.inputs[k]?) :
    (a.visit g key s).queue = s.queue := by
  rw [visit] at h ⊢
  dsimp only at h ⊢
  split at h
  next => rfl
  next input _ =>
    split at h
    next hsame => rw [if_pos hsame]
    next hsame =>
      rw [if_neg hsame]
      have hself := foldl_flow_eq_self (s := { s with visits := s.visits + 1 }) ha _ _ h
      have hqueue := congrArg SolverState.queue hself
      exact hqueue

/-- As long as no fact changes, the queue gets shorter with every visit. -/
theorem length_queue_iterate (ha : a.Lawful) (n : Nat)
    (h : ∀ m ≤ n, ∀ k : ContextNode, (a.iterate g m s).inputs[k]? = s.inputs[k]?) :
    (a.iterate g n s).queue.length = s.queue.length - n := by
  induction n generalizing s with
  | zero => rfl
  | succ n ih =>
    rw [iterate]
    split
    next hqueue => simp [hqueue]
    next key rest hqueue =>
      have hstep (m : Nat) :
          a.iterate g (m + 1) s = a.iterate g m (a.visit g key { s with queue := rest }) := by
        rw [iterate, hqueue]
      have hvisit (k : ContextNode) :
          (a.visit g key { s with queue := rest }).inputs[k]? = s.inputs[k]? := by
        have hfirst := h 1 (Nat.succ_le_succ (Nat.zero_le n)) k
        rwa [hstep, iterate] at hfirst
      have hlater (m : Nat) (hm : m ≤ n) (k : ContextNode) :
          (a.iterate g m (a.visit g key { s with queue := rest })).inputs[k]? =
            (a.visit g key { s with queue := rest }).inputs[k]? := by
        rw [← hstep, h _ (Nat.succ_le_succ hm), hvisit]
      have hpop := queue_visit_eq (s := { s with queue := rest }) ha hvisit
      rw [ih hlater, hpop, hqueue, List.length_cons, Nat.succ_sub_succ]

/-! ## From some visit on nothing changes -/

/-- From some visit on no fact of any node changes. -/
theorem exists_forall_ge_inputs_eq (ha : a.Lawful) (hclosed : a.Closed Valid)
    (hchains : a.ChainsEnd Valid) (hg : g.WellFormed) :
    ∃ N, ∀ n, N ≤ n → ∀ k : ContextNode,
      (a.iterate g n a.start).inputs[k]? = (a.iterate g N a.start).inputs[k]? := by
  have hdescends (k : ContextNode) (m n : Nat) (hmn : m ≤ n) :
      a.Descends (a.iterate g m a.start).inputs[k]? (a.iterate g n a.start).inputs[k]? := by
    obtain ⟨d, rfl⟩ := Nat.exists_eq_add_of_le hmn
    rw [iterate_add]
    exact descends_iterate ha d _ k
  have hkept (n : Nat) := Everywhere.iterate (hclosed.kept hg) n (hclosed.kept hg).start
  have each (k : ContextNode) : ∃ N, ∀ n, N ≤ n →
      (a.iterate g n a.start).inputs[k]? = (a.iterate g N a.start).inputs[k]? :=
    hchains.exists_forall_ge_eq (hdescends k) fun n I hI => (hkept n k I hI).2
  choose last hlast using each
  -- all facts have stopped changing after the last visit that changes one of them
  let N := (g.contextNodes.map last).sum
  refine ⟨N, fun n hn k => ?_⟩
  by_cases hk : k ∈ g.contextNodes
  · have hle : last k ≤ N := List.le_sum_of_mem (List.mem_map_of_mem hk)
    rw [hlast k n (Nat.le_trans hle hn), hlast k N hle]
  · have unknown (m : Nat) : (a.iterate g m a.start).inputs[k]? = none :=
      Option.eq_none_iff_forall_ne_some.2 fun I hI => hk (hkept m k I hI).1
    rw [unknown, unknown]

theorem settled_of_queue_eq_nil (ha : a.Lawful) (hg : g.WellFormed) {n : Nat}
    (hqueue : (a.iterate g n a.start).queue = []) : a.Settled g (a.iterate g n a.start) where
  queue := hqueue
  entry := by
    have hentry := Everywhere.iterate (kept_atEntry ha hg) n (kept_atEntry ha hg).start
    obtain ⟨I, hI, -⟩ := (stable_iterate ha hqueue).entry
    rw [hI, hentry _ I hI rfl]
  step := fun hk hkt => (stable_iterate ha hqueue).step hk hkt

theorem ChainsEnd.settles (hchains : a.ChainsEnd Valid) (ha : a.Lawful)
    (hclosed : a.Closed Valid) (hg : g.WellFormed) : a.Settles g := by
  obtain ⟨N, hN⟩ := exists_forall_ge_inputs_eq ha hclosed hchains hg
  let waiting := (a.iterate g N a.start).queue.length
  have hqueue : (a.iterate g (N + waiting) a.start).queue = [] := by
    have hlength := length_queue_iterate (g := g) ha waiting fun m _ k => by
      rw [← iterate_add]
      exact hN (N + m) (Nat.le_add_right N m) k
    rw [iterate_add, ← List.length_eq_zero_iff, hlength, Nat.sub_self]
  refine ⟨N + waiting, settled_of_queue_eq_nil ha hg hqueue, fun m hm => ?_⟩
  obtain ⟨d, rfl⟩ := Nat.exists_eq_add_of_le hm
  rw [iterate_add, iterate_of_queue_eq_nil hqueue]

theorem Bounded.settled {rank : φ → Nat} (h : a.Bounded Valid rank) (ha : a.Lawful)
    (hg : g.WellFormed) : a.Settled g (a.fixpoint g) :=
  settled_of_queue_eq_nil ha hg (h.queue_fixpoint hg)

end ForwardAnalysis

open ForwardAnalysis in
/--
The solver ends with settled facts for every program and every analysis whose facts have no
infinite descending chain, and within its own bound on the visits for the three analyses of
programs.
-/
theorem solver_settles (p : Program) :
    (∀ (φ : Type) [BEq φ] [LawfulBEq φ] (a : ForwardAnalysis φ) (Valid : φ → Prop),
      a.Lawful → a.Closed Valid → a.ChainsEnd Valid → a.Settles (Graph.build p)) ∧
    (∀ effects, (definiteAssignment effects).Settled (Graph.build p)
      ((definiteAssignment effects).fixpoint (Graph.build p))) ∧
    (∀ effects, (reachingDefinitions effects).Settled (Graph.build p)
      ((reachingDefinitions effects).fixpoint (Graph.build p))) ∧
    ∀ c, (availableExpressions c).Settled (Graph.build p)
      ((availableExpressions c).fixpoint (Graph.build p)) := by
  have hg : (Graph.build p).WellFormed := Graph.wellFormed_build p
  refine ⟨fun φ _ _ a Valid ha hclosed hchains => hchains.settles ha hclosed hg,
    fun effects => ?_, fun effects => ?_, fun c => ?_⟩
  · exact (bounded_definiteAssignment effects).settled (lawful_definiteAssignment effects) hg
  · exact (bounded_reachingDefinitions effects).settled (lawful_reachingDefinitions effects) hg
  · exact (CandidateTable.bounded_availableExpressions c).settled
      (CandidateTable.lawful_availableExpressions c) hg

/-- Facts are numbers; the transfers are not monotone, and no number bounds the descending
chains. -/
def sawtooth : ForwardAnalysis Nat :=
  { name := "sawtooth"
    atEntry := 3
    meet := min
    transfer := fun id n => if n % 2 = 0 then n + id else n / 2
    height := 0 }

theorem settles_sawtooth :
    sawtooth.Lawful ∧ sawtooth.Closed (fun _ => True) ∧ sawtooth.ChainsEnd (fun _ => True) ∧
      sawtooth.Settles (Graph.build Graph.subroutineProgram) := by
  have lawful : sawtooth.Lawful := ⟨Nat.min_comm, Nat.min_assoc, Nat.min_self⟩
  have closed : sawtooth.Closed fun _ => True := ⟨trivial, fun _ _ => trivial, fun _ _ => trivial⟩
  have chainsEnd : sawtooth.ChainsEnd fun _ => True := by
    intro chain _ hchain
    have drop (i : Nat) : chain i + i ≤ chain 0 := by
      induction i with
      | zero => exact Nat.le_refl _
      | succ i ih =>
        obtain ⟨hbelow, hne⟩ := hchain i
        have hle : chain (i + 1) ≤ chain i := min_eq_left_iff.1 hbelow
        omega
    have := drop (chain 0 + 1)
    omega
  exact ⟨lawful, closed, chainsEnd,
    (solver_settles Graph.subroutineProgram).1 Nat sawtooth (fun _ => True) lawful closed chainsEnd⟩

end LineBasic
