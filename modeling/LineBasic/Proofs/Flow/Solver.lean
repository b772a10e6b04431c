import LineBasic.Proofs.Flow.CallStrings

/-!
# What the solver computes

When the queue of the iteration is empty, the facts are stable: the fact of a node claims no more
than what holds after each node before it. So a property of paths and facts that is kept by every
step holds of each path and the fact at its end (`Stable.sound`). On the other hand a property of
facts alone that is kept by transfers and meets holds of all of them (`Kept.fixpoint`).
-/

namespace LineBasic
namespace ForwardAnalysis

variable {φ : Type}

/-- The laws of the meet of two facts. -/
structure Lawful (a : ForwardAnalysis φ) : Prop where
  comm : ∀ x y, a.meet x y = a.meet y x
  assoc : ∀ x y z, a.meet (a.meet x y) z = a.meet x (a.meet y z)
  self : ∀ x, a.meet x x = x

/-- The first fact claims no more than the second one. -/
def Below (a : ForwardAnalysis φ) (x y : φ) : Prop := a.meet x y = x

section Below

variable {a : ForwardAnalysis φ} {x y z : φ}

theorem Below.refl (ha : a.Lawful) (x : φ) : a.Below x x := ha.self x

theorem Below.trans (ha : a.Lawful) (hxy : a.Below x y) (hyz : a.Below y z) : a.Below x z :=
  calc a.meet x z = a.meet (a.meet x y) z := by rw [hxy]
    _ = a.meet x (a.meet y z) := ha.assoc x y z
    _ = x := by rw [hyz, hxy]

theorem meet_below_left (ha : a.Lawful) (x y : φ) : a.Below (a.meet x y) x :=
  calc a.meet (a.meet x y) x = a.meet x (a.meet x y) := ha.comm ..
    _ = a.meet (a.meet x x) y := (ha.assoc ..).symm
    _ = a.meet x y := by rw [ha.self]

theorem meet_below_right (ha : a.Lawful) (x y : φ) : a.Below (a.meet x y) y :=
  ha.comm x y ▸ meet_below_left ha y x

end Below

/-! ## Stable facts and paths -/

section Stable

variable {a : ForwardAnalysis φ} {g : Graph} {key : ContextNode}

/-- Facts that claim no more than what flows into them. -/
structure Stable (a : ForwardAnalysis φ) (g : Graph)
    (inputs : Std.ExtTreeMap ContextNode φ) : Prop where
  entry : ∃ I, inputs[((Graph.entry, []) : ContextNode)]? = some I ∧ a.Below I a.atEntry
  step : ∀ {k t : ContextNode} {I : φ}, inputs[k]? = some I → g.ContextStep k t →
    ∃ J, inputs[t]? = some J ∧ a.Below J (a.transfer k.1 I)

/-- A property of the nodes of paths, the latest first, with the facts before them. -/
structure Sound (a : ForwardAnalysis φ) (g : Graph)
    (P : List ContextNode → φ → Prop) : Prop where
  entry : ∀ {I}, a.Below I a.atEntry → P [(Graph.entry, [])] I
  step : ∀ {k t past I J}, P (k :: past) I → g.ContextStep k t →
    a.Below J (a.transfer k.1 I) → P (t :: k :: past) J

/-- Stable facts are sound for all paths. -/
theorem Stable.sound {inputs : Std.ExtTreeMap ContextNode φ} (h : a.Stable g inputs)
    {P : List ContextNode → φ → Prop} (hP : a.Sound g P) {past : List ContextNode}
    (hpath : g.ContextPath (key :: past)) : ∃ I, inputs[key]? = some I ∧ P (key :: past) I := by
  generalize hp : key :: past = path at hpath
  induction hpath generalizing key past with
  | start =>
    obtain ⟨rfl, -⟩ := List.cons.inj hp
    exact h.entry.imp fun I hI => ⟨hI.1, hP.entry hI.2⟩
  | step _ hst ih =>
    obtain ⟨rfl, -⟩ := List.cons.inj hp
    obtain ⟨I, hI, hPI⟩ := ih rfl
    obtain ⟨J, hJ, hbelow⟩ := h.step hI hst
    exact ⟨J, hJ, hP.step hPI hst hbelow⟩

end Stable

/-! ## One fact flows into a node -/

/-- What changes while facts flow out of a node: other facts claim less, and their nodes wait. -/
structure Flowed (a : ForwardAnalysis φ) (s s' : SolverState φ) : Prop where
  outputs : s'.outputs = s.outputs
  inputs : ∀ {k : ContextNode} {I : φ}, s.inputs[k]? = some I →
    ∃ J, s'.inputs[k]? = some J ∧ a.Below J I
  queue : s.queue ⊆ s'.queue
  changed : ∀ k : ContextNode, s'.inputs[k]? = s.inputs[k]? ∨ k ∈ s'.queue

variable {a : ForwardAnalysis φ} {s s' t : SolverState φ} {output : φ} {target key : ContextNode}

theorem Flowed.refl (ha : a.Lawful) (s : SolverState φ) : a.Flowed s s where
  outputs := rfl
  inputs h := ⟨_, h, .refl ha _⟩
  queue := List.Subset.refl _
  changed _ := .inl rfl

theorem Flowed.trans (ha : a.Lawful) (h : a.Flowed s s') (h' : a.Flowed s' t) : a.Flowed s t where
  outputs := h'.outputs.trans h.outputs
  inputs hk := by
    obtain ⟨J, hJ, hJI⟩ := h.inputs hk
    obtain ⟨K, hK, hKJ⟩ := h'.inputs hJ
    exact ⟨K, hK, hKJ.trans ha hJI⟩
  queue := fun _ hk => h'.queue (h.queue hk)
  changed k := by
    rcases h'.changed k with hk' | hk'
    · exact (h.changed k).imp hk'.trans fun hk => h'.queue hk
    · exact .inr hk'

variable [BEq φ] [LawfulBEq φ]

/-- The fact of the target is met with the new one; nothing else happens if it stays the same. -/
theorem flow_eq (a : ForwardAnalysis φ) (output : φ) (s : SolverState φ) (target : ContextNode) :
    ∃ merged, merged = (s.inputs[target]?).elim output (fun fact => a.meet fact output) ∧
      (s.inputs[target]? = some merged ∧ a.flow output s target = s ∨
        s.inputs[target]? ≠ some merged ∧ a.flow output s target =
          { s with
            inputs := s.inputs.insert target merged
            queue := if s.queue.contains target then s.queue else s.queue ++ [target] }) := by
  refine ⟨_, rfl, ?_⟩
  rw [flow]
  split
  next h => exact .inl ⟨eq_of_beq h, rfl⟩
  next h => exact .inr ⟨fun heq => h (beq_iff_eq.2 heq), rfl⟩

theorem flowed_flow (ha : a.Lawful) (output : φ) (s : SolverState φ) (target : ContextNode) :
    a.Flowed s (a.flow output s target) := by
  obtain ⟨merged, hmerged, ⟨-, heq⟩ | ⟨-, heq⟩⟩ := flow_eq a output s target
  · rw [heq]
    exact .refl ha s
  · have queued : target ∈ (a.flow output s target).queue := by
      rw [heq]
      by_cases h : target ∈ s.queue <;> simp [h]
    refine ⟨by rw [heq], fun {k I} hk => ?_, ?_, fun k => ?_⟩
    · by_cases hkt : k = target
      · obtain rfl := hkt
        refine ⟨merged, by simp [heq], ?_⟩
        rw [hmerged, hk]
        exact meet_below_left ha I output
      · exact ⟨I, by simp [heq, Std.ExtTreeMap.getElem?_insert, Ne.symm hkt, hk], .refl ha I⟩
    · rw [heq]
      split
      · exact List.Subset.refl _
      · exact List.subset_append_left ..
    · by_cases hkt : k = target
      · exact .inr (hkt ▸ queued)
      · exact .inl (by simp [heq, Std.ExtTreeMap.getElem?_insert, Ne.symm hkt])

theorem below_flow (ha : a.Lawful) (output : φ) (s : SolverState φ) (target : ContextNode) :
    ∃ J, (a.flow output s target).inputs[target]? = some J ∧ a.Below J output := by
  obtain ⟨merged, hmerged, hflow⟩ := flow_eq a output s target
  refine ⟨merged, ?_, ?_⟩
  · rcases hflow with ⟨hs, heq⟩ | ⟨-, heq⟩
    · rw [heq, hs]
    · simp [heq]
  · rw [hmerged]
    rcases s.inputs[target]? with _ | I
    · exact .refl ha output
    · exact meet_below_right ha I output

/-- A fact that flows into several nodes, one after the other, is met by the facts of all. -/
theorem foldl_flow (ha : a.Lawful) (output : φ) (targets : List ContextNode) (s : SolverState φ) :
    a.Flowed s (targets.foldl (a.flow output) s) ∧
      ∀ t ∈ targets, ∃ J, (targets.foldl (a.flow output) s).inputs[t]? = some J ∧
        a.Below J output := by
  induction targets generalizing s with
  | nil => exact ⟨.refl ha s, List.forall_mem_nil _⟩
  | cons target targets ih =>
    obtain ⟨hrest, hall⟩ := ih (a.flow output s target)
    refine ⟨(flowed_flow ha output s target).trans ha hrest, List.forall_mem_cons.2 ⟨?_, hall⟩⟩
    obtain ⟨J, hJ, hbelow⟩ := below_flow ha output s target
    obtain ⟨K, hK, hKJ⟩ := hrest.inputs hJ
    exact ⟨K, hK, hKJ.trans ha hbelow⟩

/-! ## The iteration ends with stable facts -/

/--
Between visits, every node that does not wait has been visited with the fact it has now, and what
holds after it has flowed on.
-/
structure Consistent (a : ForwardAnalysis φ) (g : Graph) (waiting : List ContextNode)
    (s : SolverState φ) : Prop where
  entry : ∃ I, s.inputs[((Graph.entry, []) : ContextNode)]? = some I ∧ a.Below I a.atEntry
  visited : ∀ {k : ContextNode} {I : φ}, s.inputs[k]? = some I →
    k ∈ waiting ∨ s.outputs[k]? = some (a.transfer k.1 I)
  flowed : ∀ {k t : ContextNode} {O : φ}, s.outputs[k]? = some O → g.ContextStep k t →
    ∃ J, s.inputs[t]? = some J ∧ a.Below J O

variable {g : Graph}

omit [BEq φ] [LawfulBEq φ] in
theorem consistent_start (ha : a.Lawful) : a.Consistent g a.start.queue a.start where
  entry := ⟨a.atEntry, by simp [start], .refl ha _⟩
  visited {k I} h := by
    by_cases hk : (Graph.entry, []) = k
    · exact .inl (by simp [start, ← hk])
    · simp [start, hk] at h
  flowed h := by simp [start] at h

omit [BEq φ] [LawfulBEq φ] in
/-- A node need not wait if its last visit found the fact that it has now. -/
theorem Consistent.skip {waiting : List ContextNode} (h : a.Consistent g (key :: waiting) s)
    (hkey : ∀ I, s.inputs[key]? = some I → s.outputs[key]? = some (a.transfer key.1 I)) :
    a.Consistent g waiting s where
  entry := h.entry
  visited {k I} hk := by
    rcases h.visited hk with hwait | hout
    · rcases List.mem_cons.1 hwait with rfl | hmem
      · exact .inr (hkey I hk)
      · exact .inl hmem
    · exact .inr hout
  flowed := h.flowed

omit [BEq φ] [LawfulBEq φ] in
/-- A node is visited: its fact flows on, and is kept as the one that holds after it. -/
theorem Consistent.flow (ha : a.Lawful) {waiting : List ContextNode} {input : φ}
    (h : a.Consistent g (key :: waiting) s) (hkey : s.inputs[key]? = some input)
    (hwaiting : waiting ⊆ s.queue) (hflow : a.Flowed s s')
    (hall : ∀ t ∈ g.contextSuccessors key,
      ∃ J, s'.inputs[t]? = some J ∧ a.Below J (a.transfer key.1 input)) :
    a.Consistent g s'.queue
      { s' with outputs := s'.outputs.insert key (a.transfer key.1 input) } where
  entry := by
    obtain ⟨I, hI, hbelow⟩ := h.entry
    obtain ⟨J, hJ, hJI⟩ := hflow.inputs hI
    exact ⟨J, hJ, hJI.trans ha hbelow⟩
  visited {k I} hk := by
    rcases hflow.changed k with hsame | hmem
    · have hk' : s.inputs[k]? = some I := hsame.symm.trans hk
      by_cases hkk : key = k
      · obtain rfl := hkk
        obtain rfl := Option.some.inj (hk'.symm.trans hkey)
        exact .inr (by simp)
      · rcases h.visited hk' with hwait | hout
        · have hmem := (List.mem_cons.1 hwait).resolve_left (Ne.symm hkk)
          exact .inl (hflow.queue (hwaiting hmem))
        · refine .inr ?_
          simpa [Std.ExtTreeMap.getElem?_insert, hkk, hflow.outputs] using hout
    · exact .inl hmem
  flowed {k t O} hk hkt := by
    by_cases hkk : key = k
    · obtain rfl := hkk
      obtain rfl : a.transfer key.1 input = O := by simpa using hk
      exact hall t hkt
    · have hk' : s.outputs[k]? = some O := by
        simpa [Std.ExtTreeMap.getElem?_insert, hkk, hflow.outputs] using hk
      obtain ⟨I, hI, hIO⟩ := h.flowed hk' hkt
      obtain ⟨J, hJ, hJI⟩ := hflow.inputs hI
      exact ⟨J, hJ, hJI.trans ha hIO⟩

theorem Consistent.visit (ha : a.Lawful) (h : a.Consistent g (key :: s.queue) s) :
    a.Consistent g (a.visit g key s).queue (a.visit g key s) := by
  -- the count of visits is no part of what has to be consistent
  have counted : a.Consistent g (key :: s.queue) { s with visits := s.visits + 1 } :=
    ⟨h.entry, h.visited, h.flowed⟩
  rw [ForwardAnalysis.visit]
  dsimp only
  split
  next hkey =>
    refine counted.skip fun I hI => ?_
    rw [hkey] at hI
    cases hI
  next input hkey =>
    split
    next hsame =>
      refine counted.skip fun I hI => ?_
      obtain rfl := Option.some.inj (hI.symm.trans hkey)
      exact eq_of_beq hsame
    next =>
      obtain ⟨hflow, hall⟩ := foldl_flow ha (a.transfer key.1 input) (g.contextSuccessors key)
        { s with visits := s.visits + 1 }
      exact counted.flow ha hkey (List.Subset.refl _) hflow hall

theorem Consistent.iterate (ha : a.Lawful) (n : Nat) (h : a.Consistent g s.queue s) :
    a.Consistent g (a.iterate g n s).queue (a.iterate g n s) := by
  induction n generalizing s with
  | zero => exact h
  | succ n ih =>
    rw [ForwardAnalysis.iterate]
    split
    · exact h
    next key rest hqueue =>
      refine ih (Consistent.visit ha ?_)
      rw [hqueue] at h
      exact ⟨h.entry, h.visited, h.flowed⟩

/-- Nothing waits, so the facts are stable. -/
theorem stable_iterate (ha : a.Lawful) {n : Nat} (hqueue : (a.iterate g n a.start).queue = []) :
    a.Stable g (a.iterate g n a.start).inputs := by
  have h : a.Consistent g (a.iterate g n a.start).queue (a.iterate g n a.start) :=
    (consistent_start ha).iterate ha n
  refine ⟨h.entry, fun {k t I} hk hkt => ?_⟩
  have hvisited := (h.visited hk).resolve_left (by simp [hqueue])
  exact h.flowed hvisited hkt

/-! ## Properties of all facts -/

/-- A property of facts that all operations of the iteration keep. -/
structure Kept (a : ForwardAnalysis φ) (g : Graph) (P : ContextNode → φ → Prop) : Prop where
  entry : P (Graph.entry, []) a.atEntry
  step : ∀ {k t I}, P k I → g.ContextStep k t → P t (a.transfer k.1 I)
  meet : ∀ {k I J}, P k I → P k J → P k (a.meet I J)

/-- The property holds of all facts. -/
def Everywhere (P : ContextNode → φ → Prop) (s : SolverState φ) : Prop :=
  ∀ (k : ContextNode) (I : φ), s.inputs[k]? = some I → P k I

variable {P : ContextNode → φ → Prop}

theorem Everywhere.flow (hP : a.Kept g P) (h : Everywhere P s) (hout : P target output) :
    Everywhere P (a.flow output s target) := by
  obtain ⟨merged, hmerged, ⟨-, heq⟩ | ⟨-, heq⟩⟩ := flow_eq a output s target
  · rwa [heq]
  · rw [heq]
    intro k I hk
    by_cases hkt : target = k
    · obtain rfl := hkt
      obtain rfl : merged = I := by simpa using hk
      rw [hmerged]
      rcases hs : s.inputs[target]? with _ | J
      · exact hout
      · exact hP.meet (h _ _ hs) hout
    · exact h k I (by simpa [Std.ExtTreeMap.getElem?_insert, hkt] using hk)

omit [LawfulBEq φ] in
/-- A property of the facts and the queue is kept by a visit if every flow in it keeps it. -/
theorem visit_of_flow {Q : SolverState φ → Prop}
    (frame : ∀ {s outputs visits}, Q s → Q { s with outputs, visits }) (h : Q s)
    (flow : ∀ {input s' t}, s.inputs[key]? = some input → g.ContextStep key t → Q s' →
      Q (a.flow (a.transfer key.1 input) s' t)) : Q (a.visit g key s) := by
  rw [visit]
  dsimp only
  split
  · exact frame h
  next input hkey =>
    split
    · exact frame h
    · exact frame (List.foldlRecOn _ _ (frame h) fun _ hs' _ ht => flow hkey ht hs')

theorem Everywhere.visit (hP : a.Kept g P) (h : Everywhere P s) :
    Everywhere P (a.visit g key s) :=
  visit_of_flow (fun hs => hs) h fun hkey ht hs' => hs'.flow hP (hP.step (h _ _ hkey) ht)

theorem Everywhere.iterate (hP : a.Kept g P) (n : Nat) (h : Everywhere P s) :
    Everywhere P (a.iterate g n s) := by
  induction n generalizing s with
  | zero => exact h
  | succ n ih =>
    rw [ForwardAnalysis.iterate]
    split
    · exact h
    · exact ih (Everywhere.visit hP h)

omit [BEq φ] [LawfulBEq φ] in
theorem Kept.start (hP : a.Kept g P) : Everywhere P a.start := by
  intro k I h
  by_cases hk : (Graph.entry, []) = k
  · obtain rfl := hk
    obtain rfl : a.atEntry = I := by simpa [ForwardAnalysis.start] using h
    exact hP.entry
  · simp [ForwardAnalysis.start, hk] at h

theorem Kept.fixpoint (hP : a.Kept g P) : Everywhere P (a.fixpoint g) :=
  Everywhere.iterate hP (a.visitBound g) hP.start

end ForwardAnalysis
end LineBasic
