import Mathlib.Algebra.Order.BigOperators.Group.List
import Mathlib.Algebra.GroupWithZero.Nat
import Mathlib.Algebra.Order.Group.Nat
import Mathlib.Data.List.ProdSigma
import LineBasic.Proofs.Flow.Solver

/-!
# The iteration ends

Each visit takes a node from the queue, and a node is queued again only if its fact has changed.
There are finitely many nodes under call strings (`Graph.length_contextNodes_le`) and the fact of
each changes at most as often as its rank can drop, so the bound on the number of visits is never
reached (`Bounded.queue_fixpoint`).
-/

namespace LineBasic

/-! ## Nodes under call strings -/

namespace Graph

/-- The call strings of at most `n` calls. -/
def callStrings (g : Graph) : Nat → List CallString
  | 0 => [[]]
  | n + 1 =>
    [] :: (List.range g.size ×ˢ g.callStrings n).map fun (id, calls) => id :: calls

/-- All nodes under all call strings. -/
def contextNodes (g : Graph) : List ContextNode :=
  List.range g.size ×ˢ g.callStrings callStringLimit

variable {g : Graph}

theorem mem_callStrings_iff {n : Nat} {calls : CallString} :
    calls ∈ g.callStrings n ↔ calls.length ≤ n ∧ ∀ id ∈ calls, id < g.size := by
  induction n generalizing calls with
  | zero => cases calls <;> simp [callStrings]
  | succ n ih =>
    cases calls with
    | nil => simp [callStrings]
    | cons id calls => simp [callStrings, List.mem_product, ih, and_left_comm]

theorem length_callStrings_le (n : Nat) : (g.callStrings n).length ≤ (g.size + 1) ^ n := by
  induction n with
  | zero => simp [callStrings]
  | succ n ih =>
    have one_le : 1 ≤ (g.size + 1) ^ n := Nat.one_le_pow _ _ (Nat.succ_pos _)
    calc (g.callStrings (n + 1)).length = g.size * (g.callStrings n).length + 1 := by
          simp [callStrings, List.length_product]
      _ ≤ g.size * (g.size + 1) ^ n + (g.size + 1) ^ n :=
          Nat.add_le_add (Nat.mul_le_mul_left _ ih) one_le
      _ = (g.size + 1) ^ (n + 1) := by rw [Nat.pow_succ, Nat.mul_succ, Nat.mul_comm]

theorem length_contextNodes_le :
    g.contextNodes.length ≤ g.size * (g.size + 1) ^ callStringLimit := by
  rw [contextNodes, List.length_product, List.length_range]
  exact Nat.mul_le_mul_left _ (length_callStrings_le _)

theorem mem_contextNodes_iff {c : ContextNode} :
    c ∈ g.contextNodes ↔
      c.1 < g.size ∧ c.2.length ≤ callStringLimit ∧ ∀ id ∈ c.2, id < g.size := by
  rw [contextNodes, List.mem_product, List.mem_range, mem_callStrings_iff]

theorem entry_mem_contextNodes (hg : g.WellFormed) : (entry, []) ∈ g.contextNodes :=
  mem_contextNodes_iff.2 ⟨hg.entry_lt, Nat.zero_le _, List.forall_mem_nil _⟩

/-- Steps stay within the graph. -/
theorem mem_contextNodes_of_contextStep (hg : g.WellFormed) {c d : ContextNode}
    (hc : c ∈ g.contextNodes) (hcd : g.ContextStep c d) : d ∈ g.contextNodes := by
  obtain ⟨id, calls⟩ := c
  obtain ⟨hid, hlength, hcalls⟩ := mem_contextNodes_iff.1 hc
  rcases hcd.return_or_edge with ⟨site, outer, -, rfl, rfl⟩ | ⟨-, kind, ht, hd⟩
  · exact mem_contextNodes_iff.2
      ⟨hg.next_lt site, Nat.le_of_succ_le hlength, (List.forall_mem_cons.1 hcalls).2⟩
  · refine mem_contextNodes_iff.2 ⟨hg.target_lt ht, ?_⟩
    rw [hd]
    split
    · refine ⟨List.length_take_le .., fun site hsite => ?_⟩
      rcases List.mem_cons.1 (List.mem_of_mem_take hsite) with rfl | hsite
      · exact hid
      · exact hcalls site hsite
    · exact ⟨hlength, hcalls⟩

end Graph

namespace ForwardAnalysis

variable {φ : Type}

/-- What is valid at the entry stays so under transfers and meets. -/
structure Closed (a : ForwardAnalysis φ) (Valid : φ → Prop) : Prop where
  atEntry : Valid a.atEntry
  transfer : ∀ {x} id, Valid x → Valid (a.transfer id x)
  meet : ∀ {x y}, Valid x → Valid y → Valid (a.meet x y)

/-- The valid facts change by meets at most `height` times: each change lowers the rank. -/
structure Bounded (a : ForwardAnalysis φ) (Valid : φ → Prop) (rank : φ → Nat) : Prop
    extends a.Closed Valid where
  rank_le : ∀ {x}, Valid x → rank x ≤ a.height
  rank_lt : ∀ {x y}, Valid x → Valid y → a.meet x y ≠ x → rank (a.meet x y) < rank x

/-- How often the fact of a node may still change; it may also become known. -/
def weight (a : ForwardAnalysis φ) (rank : φ → Nat) (fact : Option φ) : Nat :=
  fact.elim (a.height + 1) rank

/-- A bound on the number of visits that are still to come. -/
def potential (a : ForwardAnalysis φ) (g : Graph) (rank : φ → Nat) (s : SolverState φ) : Nat :=
  (g.contextNodes.map fun k => a.weight rank s.inputs[k]?).sum + s.queue.length

/-- A rank that counts members of a list drops when one of them is lost and none is gained. -/
theorem countP_lt_countP {α : Type} {members : List α} {p q : α → Bool}
    (hpq : ∀ x ∈ members, p x → q x) {x : α} (hx : x ∈ members) (hq : q x) (hp : ¬ p x) :
    members.countP p < members.countP q := by
  induction members with
  | nil => cases hx
  | cons y members ih =>
    rw [List.forall_mem_cons] at hpq
    have rest : members.countP p ≤ members.countP q := List.countP_mono_left hpq.2
    rw [List.countP_cons, List.countP_cons]
    rcases List.mem_cons.1 hx with rfl | hx
    · simpa [hq, hp] using Nat.lt_succ_of_le rest
    · have rest := ih hpq.2 hx
      have first : (if p y then 1 else 0) ≤ if q y then 1 else 0 := by
        split
        next hy => rw [if_pos (hpq.1 hy)]
        next => exact Nat.zero_le _
      omega

/-- The number of all members of lists that are made from the elements of another list. -/
theorem length_flatMap_zipIdx {α β : Type} (list : List α) (size : α → Nat)
    (members : α × Nat → List β) (h : ∀ entry, (members entry).length = size entry.1) :
    (list.zipIdx.flatMap members).length = (list.map size).sum := by
  conv_rhs => rw [← List.zipIdx_map_fst 0 list, List.map_map]
  rw [List.length_flatMap]
  exact congrArg List.sum (List.map_congr_left fun entry _ => h entry)

variable {a : ForwardAnalysis φ} {g : Graph} {Valid : φ → Prop} {rank : φ → Nat}

/-- All facts are valid, and only nodes of the graph have one. -/
theorem Closed.kept (h : a.Closed Valid) (hg : g.WellFormed) :
    a.Kept g fun k I => k ∈ g.contextNodes ∧ Valid I where
  entry := ⟨Graph.entry_mem_contextNodes hg, h.atEntry⟩
  step hk hkt := ⟨Graph.mem_contextNodes_of_contextStep hg hk.1 hkt, h.transfer _ hk.2⟩
  meet hI hJ := ⟨hI.1, h.meet hI.2 hJ.2⟩

theorem Bounded.weight_lt (h : a.Bounded Valid rank) {old : Option φ} {output : φ}
    (hold : ∀ I ∈ old, Valid I) (hout : Valid output)
    (hne : old ≠ some (old.elim output fun fact => a.meet fact output)) :
    a.weight rank (some (old.elim output fun fact => a.meet fact output)) < a.weight rank old := by
  rcases old with _ | I
  · exact Nat.lt_succ_of_le (h.rank_le hout)
  · exact h.rank_lt (hold I rfl) hout fun heq => hne (congrArg some heq.symm)

variable [BEq φ] [LawfulBEq φ] {s : SolverState φ}

theorem Bounded.potential_flow_le (h : a.Bounded Valid rank) {target : ContextNode} {output : φ}
    (hs : Everywhere (fun k I => k ∈ g.contextNodes ∧ Valid I) s)
    (ht : target ∈ g.contextNodes) (hout : Valid output) :
    a.potential g rank (a.flow output s target) ≤ a.potential g rank s := by
  obtain ⟨merged, hmerged, ⟨-, heq⟩ | ⟨hne, heq⟩⟩ := flow_eq a output s target
  · rw [heq]
  · have drop : a.weight rank (some merged) < a.weight rank s.inputs[target]? := by
      rw [hmerged] at hne ⊢
      exact h.weight_lt (fun I hI => (hs _ I hI).2) hout hne
    have weights : (g.contextNodes.map fun k =>
          a.weight rank (s.inputs.insert target merged)[k]?).sum <
        (g.contextNodes.map fun k => a.weight rank s.inputs[k]?).sum := by
      refine List.sum_lt_sum _ _ (fun k _ => ?_) ⟨target, ht, by simpa using drop⟩
      by_cases hkt : target = k
      · obtain rfl := hkt
        simpa using drop.le
      · simp [Std.ExtTreeMap.getElem?_insert, hkt]
    have queue : (a.flow output s target).queue.length ≤ s.queue.length + 1 := by
      rw [heq]
      dsimp only
      split
      · exact Nat.le_succ _
      · rw [List.length_append, List.length_singleton]
    rw [heq] at queue ⊢
    dsimp only [potential] at queue ⊢
    omega

theorem Bounded.potential_visit_le (h : a.Bounded Valid rank) (hg : g.WellFormed)
    (key : ContextNode) (hs : Everywhere (fun k I => k ∈ g.contextNodes ∧ Valid I) s) :
    a.potential g rank (a.visit g key s) ≤ a.potential g rank s := by
  let Q (s' : SolverState φ) : Prop :=
    Everywhere (fun k I => k ∈ g.contextNodes ∧ Valid I) s' ∧
      a.potential g rank s' ≤ a.potential g rank s
  have hvisit : Q (a.visit g key s) := by
    refine visit_of_flow (fun hs' => hs') ⟨hs, Nat.le_refl _⟩ fun {input s' t} hkey ht hs' => ?_
    obtain ⟨hmem, hinput⟩ := hs key input hkey
    have ht := Graph.mem_contextNodes_of_contextStep hg hmem ht
    have hout := h.transfer key.1 hinput
    exact ⟨hs'.1.flow (h.kept hg) ⟨ht, hout⟩, (h.potential_flow_le hs'.1 ht hout).trans hs'.2⟩
  exact hvisit.2

/-- As many visits as the potential says are enough. -/
theorem Bounded.queue_iterate (h : a.Bounded Valid rank) (hg : g.WellFormed) (n : Nat)
    (hs : Everywhere (fun k I => k ∈ g.contextNodes ∧ Valid I) s)
    (hn : a.potential g rank s ≤ n) : (a.iterate g n s).queue = [] := by
  induction n generalizing s with
  | zero =>
    rw [potential, Nat.le_zero, Nat.add_eq_zero_iff] at hn
    exact List.length_eq_zero_iff.1 hn.2
  | succ n ih =>
    rw [iterate]
    split
    · assumption
    next key rest hqueue =>
      have hrest : Everywhere (fun k I => k ∈ g.contextNodes ∧ Valid I)
        { s with queue := rest } := hs
      refine ih (hrest.visit (h.kept hg)) ?_
      have pop : a.potential g rank { s with queue := rest } + 1 = a.potential g rank s := by
        rw [potential, potential, hqueue]
        rfl
      have visit := h.potential_visit_le hg key hrest
      omega

omit [BEq φ] [LawfulBEq φ] in
theorem Bounded.potential_start_le (h : a.Bounded Valid rank) (hg : g.WellFormed) :
    a.potential g rank a.start ≤ a.visitBound g := by
  have weights : (g.contextNodes.map fun k => a.weight rank a.start.inputs[k]?).sum ≤
      g.contextNodes.length * (a.height + 1) := by
    rw [← List.length_map fun k => a.weight rank a.start.inputs[k]?]
    refine List.sum_le_card_nsmul _ _ fun w hw => ?_
    obtain ⟨k, -, rfl⟩ := List.mem_map.1 hw
    rcases hk : a.start.inputs[k]? with _ | I
    · exact Nat.le_refl _
    · exact Nat.le_succ_of_le (h.rank_le ((h.kept hg).start k I hk).2)
  calc a.potential g rank a.start
      ≤ g.contextNodes.length * (a.height + 1) + 1 := Nat.add_le_add_right weights _
    _ ≤ g.size * (g.size + 1) ^ callStringLimit * (a.height + 2) + 1 :=
        Nat.add_le_add_right (Nat.mul_le_mul Graph.length_contextNodes_le (Nat.le_succ _)) _

/-- The iteration ends because nothing waits, not because it has used up its visits. -/
theorem Bounded.queue_fixpoint (h : a.Bounded Valid rank) (hg : g.WellFormed) :
    (a.fixpoint g).queue = [] :=
  h.queue_iterate hg _ (h.kept hg).start (h.potential_start_le hg)

/-- So the facts at the end are stable. -/
theorem Bounded.stable (h : a.Bounded Valid rank) (ha : a.Lawful) (hg : g.WellFormed) :
    a.Stable g (a.fixpoint g).inputs :=
  stable_iterate ha (h.queue_fixpoint hg)

end ForwardAnalysis
end LineBasic
