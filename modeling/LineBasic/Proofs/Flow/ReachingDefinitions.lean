import LineBasic.Flow.ReachingDefinitions
import LineBasic.Proofs.Flow.Effects
import LineBasic.Proofs.Flow.Solution

/-!
# Definitions that reach a node

A definition of a scalar is in the solved fact of a node if and only if some path under call strings
leads to the node on which its node is the last one to write the scalar (`mem_before_iff`). On every
run the last definition is among them (`mem_before_of_stackRun`).
-/

namespace LineBasic

/-- The last of the nodes, the latest of which is the first, that writes the scalar. -/
def LastWriter (effects : Array Effects) (nodes : List NodeId) (name : String) (m : NodeId) :
    Prop :=
  ∃ since before, nodes = since ++ m :: before ∧ WritesAt effects m name ∧
    ∀ d ∈ since, ¬ WritesAt effects d name

section LastWriter

variable {effects : Array Effects} {nodes : List NodeId} {name : String} {m id : NodeId}

theorem lastWriter_cons_iff :
    LastWriter effects (id :: nodes) name m ↔
      (m = id ∧ WritesAt effects id name) ∨
        (¬ WritesAt effects id name ∧ LastWriter effects nodes name m) := by
  constructor
  · rintro ⟨_ | ⟨d, since⟩, before, hnodes, hm, hsince⟩
    · obtain ⟨rfl, -⟩ := List.cons.inj hnodes
      exact .inl ⟨rfl, hm⟩
    · obtain ⟨rfl, rfl⟩ := List.cons.inj hnodes
      rw [List.forall_mem_cons] at hsince
      exact .inr ⟨hsince.1, since, before, rfl, hm, hsince.2⟩
  · rintro (⟨rfl, hm⟩ | ⟨hid, since, before, rfl, hm, hsince⟩)
    · exact ⟨[], nodes, rfl, hm, List.forall_mem_nil _⟩
    · exact ⟨id :: since, before, rfl, hm, List.forall_mem_cons.2 ⟨hid, hsince⟩⟩

theorem LastWriter.writesAt (h : LastWriter effects nodes name m) : WritesAt effects m name := by
  obtain ⟨-, -, -, hm, -⟩ := h
  exact hm

theorem not_lastWriter_nil : ¬ LastWriter effects [] name m := by
  rintro ⟨since, before, hnodes, -⟩
  simp at hnodes

/-- If some node writes the scalar, one of these is the last. -/
theorem exists_lastWriter (hm : m ∈ nodes) (hwrites : WritesAt effects m name) :
    ∃ last ∈ nodes, LastWriter effects nodes name last := by
  induction nodes with
  | nil => cases hm
  | cons id nodes ih =>
    by_cases hid : WritesAt effects id name
    · exact ⟨id, List.mem_cons_self, lastWriter_cons_iff.2 (.inl ⟨rfl, hid⟩)⟩
    · rcases List.mem_cons.1 hm with rfl | hm
      · exact absurd hwrites hid
      · obtain ⟨last, hlast, h⟩ := ih hm
        exact ⟨last, List.mem_cons_of_mem _ hlast, lastWriter_cons_iff.2 (.inr ⟨hid, h⟩)⟩

theorem LastWriter.append (h : LastWriter effects nodes name m) (earlier : List NodeId) :
    LastWriter effects (nodes ++ earlier) name m := by
  obtain ⟨since, before, rfl, hm, hsince⟩ := h
  exact ⟨since, before ++ earlier, by simp, hm, hsince⟩

end LastWriter

variable {effects : Array Effects} {id m : NodeId} {name : String} {fact : DefinitionSet}

/-! ## The analysis -/

theorem mem_redefine_iff {defs : List String} :
    (name, m) ∈ redefine id defs fact ↔
      (m = id ∧ name ∈ defs) ∨ ((name, m) ∈ fact ∧ name ∉ defs) := by
  rw [redefine]
  split
  next h => simp [List.isEmpty_iff.1 h]
  next =>
    rw [Std.ExtTreeSet.mem_insertMany_list, List.contains_iff_mem, List.mem_map, or_comm]
    refine or_congr ?_ ?_
    · simp [and_comm, eq_comm]
    · simp [Std.ExtTreeSet.get_eq]

theorem mem_transfer_reachingDefinitions :
    (name, m) ∈ (reachingDefinitions effects).transfer id fact ↔
      (m = id ∧ WritesAt effects id name) ∨
        ((name, m) ∈ fact ∧ ¬ WritesAt effects id name) := by
  simp only [reachingDefinitions, WritesAt]
  rcases effects[id]? with _ | fx <;> simp [mem_redefine_iff]

theorem mem_meet_reachingDefinitions {x y : DefinitionSet} :
    (name, m) ∈ (reachingDefinitions effects).meet x y ↔ (name, m) ∈ x ∨ (name, m) ∈ y :=
  Std.ExtTreeSet.mem_union_iff

variable (effects) in
theorem lawful_reachingDefinitions : (reachingDefinitions effects).Lawful where
  comm x y := Std.ExtTreeSet.ext_mem fun (name, m) => by
    rw [mem_meet_reachingDefinitions, mem_meet_reachingDefinitions, or_comm]
  assoc x y z := Std.ExtTreeSet.ext_mem fun (name, m) => by
    simp only [mem_meet_reachingDefinitions, or_assoc]
  self x := Std.ExtTreeSet.ext_mem fun (name, m) => by
    rw [mem_meet_reachingDefinitions, or_self_iff]

/-- The definitions of all nodes. -/
def allDefinitions (effects : Array Effects) : List (String × NodeId) :=
  effects.toList.zipIdx.flatMap fun (fx, id) => fx.defs.map fun name => (name, id)

theorem length_allDefinitions : (allDefinitions effects).length = definitionCount effects := by
  calc (allDefinitions effects).length
      = (effects.toList.map fun fx => fx.defs.length).sum :=
        ForwardAnalysis.length_flatMap_zipIdx _ _ _ fun _ => List.length_map _
    _ = definitionCount effects := by rw [definitionCount, List.length_flatMap]

theorem mem_allDefinitions (h : WritesAt effects id name) :
    (name, id) ∈ allDefinitions effects := by
  obtain ⟨fx, hfx, hname⟩ := h
  refine List.mem_flatMap.2 ⟨(fx, id), ?_, List.mem_map.2 ⟨name, hname, rfl⟩⟩
  rw [List.mem_zipIdx_iff_getElem?, Array.getElem?_toList]
  exact hfx

variable (effects) in
theorem bounded_reachingDefinitions :
    (reachingDefinitions effects).Bounded (fun fact => ∀ d ∈ fact, d ∈ allDefinitions effects)
      fun fact => (allDefinitions effects).countP fun d => !fact.contains d where
  atEntry d hd := absurd hd Std.ExtTreeSet.not_mem_empty
  transfer id hfact d hd := by
    obtain ⟨name, m⟩ := d
    rcases mem_transfer_reachingDefinitions.1 hd with ⟨rfl, hwrites⟩ | ⟨hd, -⟩
    · exact mem_allDefinitions hwrites
    · exact hfact _ hd
  meet hx hy d hd := (mem_meet_reachingDefinitions.1 hd).elim (hx d) (hy d)
  rank_le _ := List.countP_le_length.trans_eq length_allDefinitions
  rank_lt {x y} _ hy hne := by
    have new : ∃ d ∈ y, d ∉ x := by
      by_contra! hsub
      refine hne (Std.ExtTreeSet.ext_mem fun d => ?_)
      exact mem_meet_reachingDefinitions.trans (or_iff_left_of_imp (hsub d))
    obtain ⟨d, hd, hnew⟩ := new
    refine ForwardAnalysis.countP_lt_countP (fun d _ h => ?_) (hy d hd) ?_ ?_
    · rw [Bool.not_eq_true', ← Bool.not_eq_true, Std.ExtTreeSet.contains_iff_mem] at h ⊢
      exact fun hmem => h (mem_meet_reachingDefinitions.2 (.inl hmem))
    · rwa [Bool.not_eq_true', ← Bool.not_eq_true, Std.ExtTreeSet.contains_iff_mem]
    · rw [Bool.not_eq_true', ← Bool.not_eq_true, Std.ExtTreeSet.contains_iff_mem, not_not]
      exact mem_meet_reachingDefinitions.2 (.inr hd)

/-! ## Facts and paths -/

/-- The last definition on a path reaches its end. -/
theorem sound_reachingDefinitions (g : Graph) :
    (reachingDefinitions effects).Sound g fun path fact =>
      ∀ name m, LastWriter effects (path.tail.map Prod.fst) name m → (name, m) ∈ fact where
  entry _ _ _ h := absurd h not_lastWriter_nil
  step {k t past I J} hI _ hJ name m h := by
    rw [← hJ]
    refine mem_meet_reachingDefinitions.2 (.inr (mem_transfer_reachingDefinitions.2 ?_))
    rcases lastWriter_cons_iff.1 h with hlast | ⟨hk, hlast⟩
    · exact .inl hlast
    · exact .inr ⟨hI name m hlast, hk⟩

/-- A definition that reaches a node is the last one on some path. -/
theorem kept_reachingDefinitions (g : Graph) :
    (reachingDefinitions effects).Kept g fun c fact =>
      (∃ past, g.ContextPath (c :: past)) ∧ ∀ name m, (name, m) ∈ fact →
        ∃ past, g.ContextPath (c :: past) ∧ LastWriter effects (past.map Prod.fst) name m where
  entry := ⟨⟨[], .start⟩, fun _ _ h => absurd h Std.ExtTreeSet.not_mem_empty⟩
  step {k t I} hI hkt := by
    obtain ⟨⟨past, hpath⟩, hI⟩ := hI
    refine ⟨⟨k :: past, hpath.step hkt⟩, fun name m h => ?_⟩
    rcases mem_transfer_reachingDefinitions.1 h with hlast | ⟨hmem, hk⟩
    · exact ⟨k :: past, hpath.step hkt, lastWriter_cons_iff.2 (.inl hlast)⟩
    · obtain ⟨past, hpath, hlast⟩ := hI name m hmem
      exact ⟨k :: past, hpath.step hkt, lastWriter_cons_iff.2 (.inr ⟨hk, hlast⟩)⟩
  meet {k I J} hI hJ :=
    ⟨hI.1, fun name m h => (mem_meet_reachingDefinitions.1 h).elim (hI.2 name m) (hJ.2 name m)⟩

theorem distributes_not_mem_reachingDefinitions (effects : Array Effects) (name : String)
    (m : NodeId) :
    (reachingDefinitions effects).Distributes fun fact => (name, m) ∉ fact := fun _ _ =>
  mem_meet_reachingDefinitions.not.trans not_or

variable {g : Graph}

theorem mem_before_iff (hg : g.WellFormed)
    (hfact : ((reachingDefinitions effects).solve g).before[id]? = some fact) :
    (name, m) ∈ fact ↔ ∃ calls past, g.ContextPath ((id, calls) :: past) ∧
      LastWriter effects (past.map Prod.fst) name m := by
  have distributes := distributes_not_mem_reachingDefinitions effects name m
  have hmem : (name, m) ∈ fact ↔ ∃ calls I,
      ((reachingDefinitions effects).fixpoint g).inputs[((id, calls) : ContextNode)]? = some I ∧
        (name, m) ∈ I := by
    rw [← not_iff_not, distributes.before_iff hfact]
    simp only [not_exists, not_and]
  rw [hmem]
  constructor
  · rintro ⟨calls, I, hI, hmem⟩
    obtain ⟨past, hpath, hlast⟩ := ((kept_reachingDefinitions g).fixpoint _ I hI).2 name m hmem
    exact ⟨calls, past, hpath, hlast⟩
  · rintro ⟨calls, past, hpath, hlast⟩
    have stable :=
      (bounded_reachingDefinitions effects).stable (lawful_reachingDefinitions effects) hg
    obtain ⟨I, hI, hsound⟩ := stable.sound (sound_reachingDefinitions g) hpath
    exact ⟨calls, I, hI, hsound name m hlast⟩

/-- The last definition on a run to a node reaches it. -/
theorem mem_before_of_stackRun (hg : g.WellFormed)
    (hfact : ((reachingDefinitions effects).solve g).before[id]? = some fact)
    {stack : List NodeId} {past : List Graph.StackState} (hrun : g.StackRun ((id, stack) :: past))
    (hlast : LastWriter effects (past.map Prod.fst) name m) : (name, m) ∈ fact := by
  obtain ⟨calls, past', hpath, hpast⟩ := hrun.exists_contextPath_to hg
  exact (mem_before_iff hg hfact).2 ⟨calls, past', hpath, hpast ▸ hlast⟩

/-! ## Records of assignments -/

/-- There is a record of an assignment to a scalar, unless its value is a literal or a copy or
nothing leads to it. -/
theorem Substitution.ofNode?_eq_some_iff {solution : Solution DefinitionSet} {n : Node}
    {s : Substitution} :
    ofNode? g effects solution n = some s ↔ ∃ v value fact,
      n.command? = some (.assign (.scalar v) value) ∧
        (value.constant?.isSome || isCopy value) = false ∧
        solution.before[n.id]? = some fact ∧
        ofDefinitions g effects solution n v value fact = s := by
  rw [ofNode?]
  split
  next v value hc =>
    rw [ofAssignment?]
    constructor
    · intro h
      split at h
      next => cases h
      next hconsidered =>
        obtain ⟨fact, hfact, hs⟩ := Option.map_eq_some_iff.1 h
        exact ⟨v, value, fact, hc, Bool.eq_false_iff.2 hconsidered, hfact, hs⟩
    · rintro ⟨v', value', fact, hc', hconsidered, hfact, hs⟩
      obtain ⟨⟨rfl⟩, rfl⟩ := Command.assign.inj (Option.some.inj (hc.symm.trans hc'))
      rw [if_neg (Bool.eq_false_iff.1 hconsidered), hfact, Option.map_some, hs]
  next hnot =>
    simp only [reduceCtorEq, false_iff]
    rintro ⟨v, value, fact, hc, -⟩
    exact hnot v value hc

end LineBasic
