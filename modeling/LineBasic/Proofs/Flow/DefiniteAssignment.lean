import LineBasic.Flow.DefiniteAssignment
import LineBasic.Proofs.Flow.Effects
import LineBasic.Proofs.Flow.Solution

/-!
# Reads before assignment

A scalar is missing from the solved fact of a node if and only if some path under call strings leads
to the node without writing it (`not_mem_before_iff`). So the reports are exact: a read is reported,
once for each node and scalar, if and only if there is such a path.
-/

namespace LineBasic

variable {effects : Array Effects}

/-! ## The analysis -/

theorem mem_writtenScalars {name : String} :
    name ∈ writtenScalars effects ↔ ∃ id, WritesAt effects id name := by
  have collect (list : List Effects) (s : AssignedSet) :
      name ∈ list.foldl (fun s fx => s.insertMany fx.defs) s ↔
        name ∈ s ∨ ∃ fx ∈ list, name ∈ fx.defs := by
    induction list generalizing s with
    | nil => simp
    | cons fx list ih => simp [ih, Std.ExtTreeSet.mem_insertMany_list, or_assoc]
  rw [writtenScalars, ← Array.foldl_toList, collect]
  simp only [WritesAt, Std.ExtTreeSet.not_mem_empty, false_or, Array.mem_toList_iff,
    Array.mem_iff_getElem?]
  exact ⟨fun ⟨fx, ⟨id, hfx⟩, hname⟩ => ⟨id, fx, hfx, hname⟩,
    fun ⟨id, fx, hfx, hname⟩ => ⟨fx, ⟨id, hfx⟩, hname⟩⟩

theorem mem_transfer_definiteAssignment {id : NodeId} {fact : AssignedSet} {name : String} :
    name ∈ (definiteAssignment effects).transfer id fact ↔
      name ∈ fact ∨ WritesAt effects id name := by
  simp only [definiteAssignment, WritesAt]
  rcases effects[id]? with _ | fx <;> simp [Std.ExtTreeSet.mem_insertMany_list]

theorem mem_meet_definiteAssignment {x y : AssignedSet} {name : String} :
    name ∈ (definiteAssignment effects).meet x y ↔ name ∈ x ∧ name ∈ y :=
  Std.ExtTreeSet.mem_inter_iff

variable (effects) in
theorem lawful_definiteAssignment : (definiteAssignment effects).Lawful where
  comm x y := Std.ExtTreeSet.ext_mem fun name => by
    rw [mem_meet_definiteAssignment, mem_meet_definiteAssignment, and_comm]
  assoc x y z := Std.ExtTreeSet.ext_mem fun name => by
    simp only [mem_meet_definiteAssignment, and_assoc]
  self x := Std.ExtTreeSet.ext_mem fun name => by
    rw [mem_meet_definiteAssignment, and_self_iff]

variable (effects) in
theorem bounded_definiteAssignment :
    (definiteAssignment effects).Bounded
      (fun fact => ∀ name ∈ fact, name ∈ writtenScalars effects)
      fun fact => (writtenScalars effects).toList.countP fact.contains where
  atEntry name hname := absurd hname Std.ExtTreeSet.not_mem_empty
  transfer id hfact name hname := by
    rcases mem_transfer_definiteAssignment.1 hname with hname | hwrites
    · exact hfact name hname
    · exact mem_writtenScalars.2 ⟨id, hwrites⟩
  meet hx _ name hname := hx name (mem_meet_definiteAssignment.1 hname).1
  rank_le _ := List.countP_le_length.trans_eq Std.ExtTreeSet.length_toList
  rank_lt {x y} hx _ hne := by
    have lost : ∃ name ∈ x, name ∉ (definiteAssignment effects).meet x y := by
      by_contra! hkept
      refine hne (Std.ExtTreeSet.ext_mem fun name => ⟨fun hname => ?_, hkept name⟩)
      exact (mem_meet_definiteAssignment.1 hname).1
    obtain ⟨name, hname, hlost⟩ := lost
    refine ForwardAnalysis.countP_lt_countP (fun other _ hother => ?_)
      (Std.ExtTreeSet.mem_toList.2 (hx name hname)) (Std.ExtTreeSet.contains_iff_mem.2 hname) ?_
    · rw [Std.ExtTreeSet.contains_iff_mem] at hother ⊢
      exact (mem_meet_definiteAssignment.1 hother).1
    · rwa [Std.ExtTreeSet.contains_iff_mem]

/-! ## Facts and paths -/

/-- What is definitely assigned has been written on every path. -/
theorem sound_definiteAssignment (g : Graph) :
    (definiteAssignment effects).Sound g fun path fact =>
      ∀ name ∈ fact, ∃ c ∈ path.tail, WritesAt effects c.1 name where
  entry {I} hI name hname := by
    rw [← hI] at hname
    exact absurd (mem_meet_definiteAssignment.1 hname).2 Std.ExtTreeSet.not_mem_empty
  step {k t past I J} hI _ hJ name hname := by
    rw [← hJ] at hname
    rcases mem_transfer_definiteAssignment.1 (mem_meet_definiteAssignment.1 hname).2 with
      hname | hwrites
    · obtain ⟨c, hc, hwrites⟩ := hI name hname
      exact ⟨c, List.mem_cons_of_mem _ hc, hwrites⟩
    · exact ⟨k, List.mem_cons_self, hwrites⟩

/-- What is not definitely assigned has not been written on some path. -/
theorem kept_definiteAssignment (g : Graph) :
    (definiteAssignment effects).Kept g fun c fact => ∀ name, name ∉ fact →
      ∃ past, g.ContextPath (c :: past) ∧ ∀ d ∈ past, ¬ WritesAt effects d.1 name where
  entry _ _ := ⟨[], .start, List.forall_mem_nil _⟩
  step {k t I} hI hkt name hname := by
    rw [mem_transfer_definiteAssignment, not_or] at hname
    obtain ⟨past, hpath, hpast⟩ := hI name hname.1
    exact ⟨k :: past, hpath.step hkt, List.forall_mem_cons.2 ⟨hname.2, hpast⟩⟩
  meet {k I J} hI hJ name hname := by
    rw [mem_meet_definiteAssignment, not_and_or] at hname
    exact hname.elim (hI name) (hJ name)

theorem distributes_mem_definiteAssignment (effects : Array Effects) (name : String) :
    (definiteAssignment effects).Distributes fun fact => name ∈ fact := fun _ _ =>
  mem_meet_definiteAssignment

/-- The node is reached, and its fact lacks the scalar, through some path that does not write it. -/
theorem not_mem_before_iff {g : Graph} (hg : g.WellFormed) {id : NodeId} {name : String} :
    (∃ fact, ((definiteAssignment effects).solve g).before[id]? = some fact ∧ name ∉ fact) ↔
      ∃ calls past, g.ContextPath ((id, calls) :: past) ∧
        ∀ d ∈ past, ¬ WritesAt effects d.1 name := by
  have stable := (bounded_definiteAssignment effects).stable (lawful_definiteAssignment effects) hg
  have distributes := distributes_mem_definiteAssignment effects name
  constructor
  · rintro ⟨fact, hfact, hname⟩
    rw [distributes.before_iff hfact] at hname
    push Not at hname
    obtain ⟨calls, I, hI, hname⟩ := hname
    obtain ⟨past, hpath, hpast⟩ := (kept_definiteAssignment g).fixpoint _ I hI name hname
    exact ⟨calls, past, hpath, hpast⟩
  · rintro ⟨calls, past, hpath, hpast⟩
    obtain ⟨I, hI, hsound⟩ := stable.sound (sound_definiteAssignment g) hpath
    obtain ⟨fact, hfact⟩ := Option.isSome_iff_exists.1
      (ForwardAnalysis.isSome_before.2 ⟨calls, I, hI⟩)
    refine ⟨fact, hfact, fun hname => ?_⟩
    obtain ⟨d, hd, hwrites⟩ := hsound name ((distributes.before_iff hfact).1 hname calls I hI)
    exact hpast d hd hwrites

/-! ## The reports -/

namespace UninitializedUse

theorem map_name_atNode (line : Nat) (assigned : AssignedSet) (uses : List VarUse) :
    (atNode line assigned uses).map name =
      ((uses.filter fun u => !assigned.contains u.name).map VarUse.name).eraseDups := by
  rw [atNode]
  generalize uses.filter (fun u => !assigned.contains u.name) = open'
  rw [List.map_map, List.map_filterMap]
  refine (List.filterMap_congr fun name hname => ?_).trans List.filterMap_some
  obtain ⟨u, hu, rfl⟩ := List.mem_map.1 (List.mem_eraseDups.1 hname)
  have found : (open'.find? fun w => w.name == u.name).isSome :=
    List.find?_isSome.2 ⟨u, hu, beq_self_eq_true u.name⟩
  obtain ⟨first, hfirst⟩ := Option.isSome_iff_exists.1 found
  have hname : (first.name == u.name) = true :=
    List.find?_some (p := fun w : VarUse => w.name == u.name) hfirst
  rw [hfirst]
  exact congrArg some (eq_of_beq hname)

theorem line_of_mem_atNode {line : Nat} {assigned : AssignedSet} {uses : List VarUse}
    {u : UninitializedUse} (hu : u ∈ atNode line assigned uses) : u.line = line := by
  obtain ⟨_, _, rfl⟩ := List.mem_map.1 hu
  rfl

variable {solution : Solution AssignedSet} {n : Node}

theorem nodup_map_name_ofNode : ((ofNode effects solution n).map name).Nodup := by
  rw [ofNode]
  split
  · rw [map_name_atNode]
    exact nodup_eraseDups _
  · exact List.nodup_nil

theorem line_of_mem_ofNode {u : UninitializedUse} (hu : u ∈ ofNode effects solution n) :
    u.line = n.line := by
  rw [ofNode] at hu
  split at hu
  · exact line_of_mem_atNode hu
  · cases hu

theorem mem_map_name_ofNode {v : String} :
    v ∈ (ofNode effects solution n).map name ↔
      ReadsAt effects n.id v ∧ ∃ fact, solution.before[n.id]? = some fact ∧ v ∉ fact := by
  rw [ofNode, ReadsAt]
  split
  next fact fx hfact hfx =>
    simp only [map_name_atNode, List.mem_eraseDups, List.mem_map, List.mem_filter, hfact, hfx,
      Option.some.injEq, exists_eq_left', Bool.not_eq_true', ← Bool.not_eq_true,
      Std.ExtTreeSet.contains_iff_mem]
    constructor
    · rintro ⟨u, ⟨hu, hopen⟩, rfl⟩
      exact ⟨⟨u, hu, rfl⟩, hopen⟩
    · rintro ⟨⟨u, hu, rfl⟩, hopen⟩
      exact ⟨u, ⟨hu, hopen⟩, rfl⟩
  next hnone =>
    refine iff_of_false List.not_mem_nil ?_
    rintro ⟨⟨fx, hfx, -⟩, fact, hfact, -⟩
    exact hnone fact fx hfact hfx

end UninitializedUse

/--
The reports are those of the nodes, one node after the other. A node has one report for each scalar
that it reads and that some path under call strings leads to it without writing, and no others.
-/
theorem findUninitialized_exact (p : Program) (t : SymbolTable) :
    let g := Graph.build p
    let effects := g.effects t
    ∃ reports : Node → List UninitializedUse,
      findUninitialized g effects = g.nodes.toList.flatMap reports ∧
        ∀ n ∈ g.nodes, (∀ u ∈ reports n, u.line = n.line) ∧
          ((reports n).map UninitializedUse.name).Nodup ∧
          ∀ v, v ∈ (reports n).map UninitializedUse.name ↔
            ReadsAt effects n.id v ∧
              ∃ calls past, g.ContextPath ((n.id, calls) :: past) ∧
                ∀ d ∈ past, ¬ WritesAt effects d.1 v := by
  intro g effects
  refine ⟨_, rfl, fun n _ => ⟨fun u => UninitializedUse.line_of_mem_ofNode,
    UninitializedUse.nodup_map_name_ofNode, fun v => ?_⟩⟩
  rw [UninitializedUse.mem_map_name_ofNode, not_mem_before_iff (Graph.wellFormed_build p)]

end LineBasic
