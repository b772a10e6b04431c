import LineBasic.Proofs.Graph.Numbering

/-!
# Arms and the order of the text

The statements of an arm have the numbers of an interval. When a statement ends normally, control
goes past a later one only if an arm holds the later one without the earlier
(`Program.exists_arm_of_lt_next`). So control that does not jump meets every statement that stands
in the same arms as the one it started from (`Program.le_of_not_jumpsAhead`).
-/

namespace LineBasic

/-- The numbers of the statements in an arm, from `start` up to `stop`. -/
structure ArmSpan where
  start : Nat
  stop : Nat
  deriving DecidableEq, Repr

/-- The statement with this number is in the arm. -/
def ArmSpan.Holds (a : ArmSpan) (id : Nat) : Prop := a.start ≤ id ∧ id < a.stop

instance (a : ArmSpan) (id : NodeId) : Decidable (a.Holds id) :=
  inferInstanceAs (Decidable (_ ∧ _))

/-- The arms of a statement itself. -/
def Placed.arms (q : Placed) : List ArmSpan :=
  match q.statement with
  | .command .. => []
  | .conditional _ _ onTrue none => [⟨q.id + 1, q.id + 1 + onTrue.nodeCount⟩]
  | .conditional _ _ onTrue (some onFalse) =>
    [⟨q.id + 1, q.id + 1 + onTrue.nodeCount⟩,
      ⟨q.id + 1 + onTrue.nodeCount, q.id + 1 + onTrue.nodeCount + onFalse.nodeCount⟩]

/-- One of the arms holds the second number but not the first. -/
def EntersArm (arms : List ArmSpan) (source target : NodeId) : Prop :=
  ∃ a ∈ arms, a.Holds target ∧ ¬ a.Holds source

theorem EntersArm.mono {arms arms' : List ArmSpan} {source target : NodeId}
    (h : EntersArm arms source target) (hsub : arms ⊆ arms') : EntersArm arms' source target :=
  h.imp fun _ ha => ⟨hsub ha.1, ha.2⟩

/-- What is inside a statement is in one of its arms. -/
theorem Placed.entersArm_of_inside {q : Placed} {id : Nat} (hlt : q.id < id)
    (hend : id < q.id + q.statement.nodeCount) : EntersArm q.arms q.id id := by
  unfold NodeId at *
  obtain ⟨⟨place, body⟩ | ⟨place, condition, onTrue, _ | onFalse⟩, first, depth, next⟩ := q
  · simp only [Statement.nodeCount] at hlt hend
    omega
  · simp only [Statement.nodeCount] at hlt hend
    refine ⟨_, List.mem_singleton_self _, ?_, ?_⟩ <;> simp only [ArmSpan.Holds] <;> omega
  · simp only [Statement.nodeCount] at hlt hend
    by_cases hthen : id < first + 1 + onTrue.nodeCount
    · refine ⟨_, List.mem_cons_self, ?_, ?_⟩ <;> simp only [ArmSpan.Holds] <;> omega
    · refine ⟨_, List.mem_cons_of_mem _ (List.mem_singleton_self _), ?_, ?_⟩ <;>
        simp only [ArmSpan.Holds] <;> omega

/-- The arms of a statement are inside it. -/
theorem Placed.span_of_mem_arms {q : Placed} {a : ArmSpan} (ha : a ∈ q.arms) :
    q.id < a.start ∧ a.stop ≤ q.id + q.statement.nodeCount := by
  unfold NodeId at *
  obtain ⟨⟨place, body⟩ | ⟨place, condition, onTrue, _ | onFalse⟩, first, depth, next⟩ := q
  · cases ha
  · obtain rfl := List.mem_singleton.1 ha
    simp only [Statement.nodeCount]
    omega
  · simp only [Placed.arms, List.mem_cons, List.not_mem_nil, or_false] at ha
    rcases ha with rfl | rfl <;> simp only [Statement.nodeCount] <;> omega

/-! ## The depth of a statement -/

/-- The number of these arms around the statement with this number. -/
def armsAround (arms : List ArmSpan) (id : Nat) : Nat := arms.countP fun a => a.Holds id

theorem armsAround_append (arms arms' : List ArmSpan) (id : Nat) :
    armsAround (arms ++ arms') id = armsAround arms id + armsAround arms' id :=
  List.countP_append

theorem armsAround_cons_of_holds {a : ArmSpan} {id : Nat} (h : a.Holds id) (arms : List ArmSpan) :
    armsAround (a :: arms) id = 1 + armsAround arms id :=
  (List.countP_cons_of_pos (by simpa using h)).trans (Nat.add_comm _ 1)

theorem armsAround_cons_of_not_holds {a : ArmSpan} {id : Nat} (h : ¬ a.Holds id)
    (arms : List ArmSpan) : armsAround (a :: arms) id = armsAround arms id :=
  List.countP_cons_of_neg (by simpa using h)

/-- Statements whose numbers are all elsewhere have no arm around this one. -/
theorem armsAround_eq_zero {placed : List Placed} {id first count next : Nat}
    (h : ∀ q ∈ placed, q.Within first count next) (hid : id ≤ first ∨ first + count ≤ id) :
    armsAround (placed.flatMap Placed.arms) id = 0 := by
  refine List.countP_eq_zero.2 fun a ha => ?_
  obtain ⟨q, hq, ha⟩ := List.mem_flatMap.1 ha
  obtain ⟨hstart, hstop⟩ := Placed.span_of_mem_arms ha
  have hfirst := (h q hq).first_le
  have hend := (h q hq).end_le
  rw [decide_eq_true_eq, ArmSpan.Holds]
  unfold NodeId at *
  omega

mutual

theorem Statement.armsAround_of_mem_placed (first next depth : Nat) :
    ∀ s : Statement, ∀ q ∈ s.placed first next depth,
      depth + armsAround ((s.placed first next depth).flatMap Placed.arms) q.id = q.depth
  | .command place body => by
    intro q hq
    rw [Statement.placed, List.mem_singleton] at hq
    subst hq
    rfl
  | .conditional place condition onTrue none => by
    intro q hq
    have none := armsAround_eq_zero (Statement.within_of_mem_placed first next depth
      (.conditional place condition onTrue none)) (.inl (Nat.le_refl first))
    rw [Statement.placed] at hq none ⊢
    rcases List.mem_cons.1 hq with rfl | hq
    · exact congrArg (depth + ·) none
    · have inside := onTrue.within_of_mem_placed _ _ _ q hq
      have around : ArmSpan.Holds ⟨first + 1, first + 1 + onTrue.nodeCount⟩ q.id :=
        ⟨inside.first_le, Nat.lt_of_lt_of_le
          (Nat.lt_add_of_pos_right q.statement.nodeCount_pos) inside.end_le⟩
      rw [List.flatMap_cons, Placed.arms, List.singleton_append, armsAround_cons_of_holds around,
        ← Nat.add_assoc]
      exact onTrue.armsAround_of_mem_placed _ _ _ q hq
  | .conditional place condition onTrue (some onFalse) => by
    intro q hq
    have none := armsAround_eq_zero (Statement.within_of_mem_placed first next depth
      (.conditional place condition onTrue (some onFalse))) (.inl (Nat.le_refl first))
    have withinTrue := onTrue.within_of_mem_placed (first + 1) next (depth + 1)
    have withinFalse :=
      onFalse.within_of_mem_placed (first + 1 + onTrue.nodeCount) next (depth + 1)
    rw [Statement.placed] at hq none ⊢
    rw [List.mem_cons, List.mem_append] at hq
    rcases hq with rfl | hq | hq
    · exact congrArg (depth + ·) none
    · have hend := (withinTrue q hq).end_le
      have hpos := q.statement.nodeCount_pos
      have hlt : q.id < first + 1 + onTrue.nodeCount := by
        exact Nat.lt_of_lt_of_le (Nat.lt_add_of_pos_right hpos) hend
      have around : ArmSpan.Holds ⟨first + 1, first + 1 + onTrue.nodeCount⟩ q.id :=
        ⟨(withinTrue q hq).first_le, hlt⟩
      have outside : ¬ ArmSpan.Holds ⟨first + 1 + onTrue.nodeCount,
          first + 1 + onTrue.nodeCount + onFalse.nodeCount⟩ q.id :=
        fun h => Nat.not_lt.2 h.1 hlt
      rw [List.flatMap_cons, Placed.arms, List.cons_append, armsAround_cons_of_holds around,
        List.singleton_append, armsAround_cons_of_not_holds outside, List.flatMap_append,
        armsAround_append, armsAround_eq_zero withinFalse (.inl (Nat.le_of_lt hlt)),
        ← Nat.add_assoc]
      exact onTrue.armsAround_of_mem_placed _ _ _ q hq
    · have hend := (withinFalse q hq).end_le
      have hpos := q.statement.nodeCount_pos
      have hle : first + 1 + onTrue.nodeCount ≤ q.id := (withinFalse q hq).first_le
      have around : ArmSpan.Holds ⟨first + 1 + onTrue.nodeCount,
          first + 1 + onTrue.nodeCount + onFalse.nodeCount⟩ q.id :=
        ⟨hle, Nat.lt_of_lt_of_le (Nat.lt_add_of_pos_right hpos) hend⟩
      have outside : ¬ ArmSpan.Holds ⟨first + 1, first + 1 + onTrue.nodeCount⟩ q.id :=
        fun h => Nat.not_lt.2 hle h.2
      rw [List.flatMap_cons, Placed.arms, List.cons_append, armsAround_cons_of_not_holds outside,
        List.singleton_append, armsAround_cons_of_holds around, List.flatMap_append,
        armsAround_append, armsAround_eq_zero withinTrue (.inr hle), Nat.zero_add, ← Nat.add_assoc]
      exact onFalse.armsAround_of_mem_placed _ _ _ q hq

theorem Arm.armsAround_of_mem_placed (first next depth : Nat) :
    ∀ a : Arm, ∀ q ∈ a.placed first next depth,
      depth + armsAround ((a.placed first next depth).flatMap Placed.arms) q.id = q.depth
  | .line _ => by simp [Arm.placed]
  | .block statements => by
    rw [Arm.placed]
    exact armsAround_of_mem_placedList first next depth statements

theorem armsAround_of_mem_placedList (first next depth : Nat) :
    ∀ statements : List Statement, ∀ q ∈ placedList first next depth statements,
      depth + armsAround ((placedList first next depth statements).flatMap Placed.arms) q.id =
        q.depth
  | [] => by simp [placedList]
  | s :: rest => by
    intro q hq
    have within := s.within_of_mem_placed first (if rest.isEmpty then next else first + s.nodeCount)
      depth
    have withinRest := within_of_mem_placedList (first + s.nodeCount) next depth rest
    rw [placedList, List.flatMap_append, armsAround_append]
    rcases List.mem_append.1 hq with hq | hq
    · have hlt : q.id < first + s.nodeCount := Nat.lt_of_lt_of_le
        (Nat.lt_add_of_pos_right q.statement.nodeCount_pos) (within q hq).end_le
      rw [armsAround_eq_zero withinRest (.inl (Nat.le_of_lt hlt))]
      exact s.armsAround_of_mem_placed _ _ _ q hq
    · rw [armsAround_eq_zero within (.inr (withinRest q hq).first_le), Nat.zero_add]
      exact armsAround_of_mem_placedList _ next depth rest q hq

end

/-! ## Where control goes at the end of a statement -/

/-- If control goes from the statement past `id`, it enters an arm there or leaves all statements
before `stop`. -/
def Placed.GoesPast (arms : List ArmSpan) (stop next : Nat) (q : Placed) (id : Nat) : Prop :=
  EntersArm arms q.id id ∨ q.next = next ∧ stop ≤ id

mutual

theorem Statement.goesPast_of_mem_placed (first next depth : Nat) {id : Nat} :
    ∀ s : Statement, ∀ q ∈ s.placed first next depth, q.id < id → id < q.next →
      q.GoesPast ((s.placed first next depth).flatMap Placed.arms) (first + s.nodeCount) next id
  | .command place body => by
    intro q hq hlt _
    rw [Statement.placed, List.mem_singleton] at hq
    subst hq
    exact .inr ⟨rfl, hlt⟩
  | .conditional place condition onTrue none => by
    intro q hq hlt hnext
    simp only [Statement.placed, List.mem_cons, List.flatMap_cons, Statement.nodeCount] at hq ⊢
    rcases hq with rfl | hq
    · by_cases hinside : id < first + (1 + onTrue.nodeCount)
      · exact .inl ((Placed.entersArm_of_inside hlt hinside).mono (List.subset_append_left ..))
      · exact .inr ⟨rfl, Nat.le_of_not_lt hinside⟩
    · rcases onTrue.goesPast_of_mem_placed _ _ _ q hq hlt hnext with h | ⟨hq', hle⟩
      · exact .inl (h.mono (List.subset_append_right ..))
      · exact .inr ⟨hq', by omega⟩
  | .conditional place condition onTrue (some onFalse) => by
    intro q hq hlt hnext
    simp only [Statement.placed, List.mem_cons, List.mem_append, List.flatMap_cons,
      List.flatMap_append, Statement.nodeCount] at hq ⊢
    rcases hq with rfl | hq | hq
    · by_cases hinside : id < first + (1 + onTrue.nodeCount + onFalse.nodeCount)
      · exact .inl ((Placed.entersArm_of_inside hlt hinside).mono (List.subset_append_left ..))
      · exact .inr ⟨rfl, Nat.le_of_not_lt hinside⟩
    · rcases onTrue.goesPast_of_mem_placed _ _ _ q hq hlt hnext with h | ⟨hq', hle⟩
      · exact .inl (h.mono (List.subset_append_of_subset_right _ (List.subset_append_left ..)))
      · by_cases hinside : id < first + 1 + onTrue.nodeCount + onFalse.nodeCount
        · -- past the rest of the first arm control would enter the second one
          have hend := (onTrue.within_of_mem_placed _ _ _ q hq).end_le
          have hpos := q.statement.nodeCount_pos
          refine .inl ⟨_, List.mem_append_left _ (List.mem_cons_of_mem _ List.mem_cons_self), ?_⟩
          simp only [ArmSpan.Holds]
          unfold NodeId at *
          omega
        · exact .inr ⟨hq', by omega⟩
    · rcases onFalse.goesPast_of_mem_placed _ _ _ q hq hlt hnext with h | ⟨hq', hle⟩
      · exact .inl (h.mono (List.subset_append_of_subset_right _ (List.subset_append_right ..)))
      · exact .inr ⟨hq', by omega⟩

theorem Arm.goesPast_of_mem_placed (first next depth : Nat) {id : Nat} :
    ∀ a : Arm, ∀ q ∈ a.placed first next depth, q.id < id → id < q.next →
      q.GoesPast ((a.placed first next depth).flatMap Placed.arms) (first + a.nodeCount) next id
  | .line _ => by simp [Arm.placed]
  | .block statements => by
    rw [Arm.placed, Arm.nodeCount]
    exact goesPast_of_mem_placedList first next depth statements

theorem goesPast_of_mem_placedList (first next depth : Nat) {id : Nat} :
    ∀ statements : List Statement, ∀ q ∈ placedList first next depth statements,
      q.id < id → id < q.next →
      q.GoesPast ((placedList first next depth statements).flatMap Placed.arms)
        (first + nodeCountOfList statements) next id
  | [] => by simp [placedList]
  | s :: rest => by
    intro q hq hlt hnext
    simp only [placedList, List.mem_append, List.flatMap_append, nodeCountOfList] at hq ⊢
    rcases hq with hq | hq
    · rcases s.goesPast_of_mem_placed _ _ _ q hq hlt hnext with h | ⟨hq', hle⟩
      · exact .inl (h.mono (List.subset_append_left ..))
      · cases rest with
        | nil => exact .inr ⟨by simpa using hq', by simpa [nodeCountOfList] using hle⟩
        | cons t rest =>
          -- the statement after this one is not past `id`
          rw [hq'] at hnext
          exact absurd hnext (Nat.not_lt.2 (by simpa using hle))
    · rcases goesPast_of_mem_placedList _ next depth rest q hq hlt hnext with h | ⟨hq', hle⟩
      · exact .inl (h.mono (List.subset_append_right ..))
      · exact .inr ⟨hq', by omega⟩

end

namespace Program

/-- All arms of a program. -/
def arms (p : Program) : List ArmSpan := p.placed.flatMap Placed.arms

variable {p : Program} {q : Placed} {id target : NodeId}

/-- The depth of a statement is the number of arms around it. -/
theorem armsAround_eq_depth (hq : q ∈ p.placed) : armsAround p.arms q.id = q.depth := by
  rw [← armsAround_of_mem_placedList 2 Graph.exit 0 p.statements q hq, Nat.zero_add]
  rfl

/-- A statement at depth zero is in no arm. -/
theorem not_holds_of_depth_eq_zero (hq : q ∈ p.placed) (hdepth : q.depth = 0) {a : ArmSpan}
    (ha : a ∈ p.arms) : ¬ a.Holds q.id := by
  rw [← armsAround_eq_depth hq] at hdepth
  simpa using List.countP_eq_zero.1 hdepth a ha

theorem arms_subset (hq : q ∈ p.placed) : q.arms ⊆ p.arms := fun _ ha =>
  List.mem_flatMap.2 ⟨q, hq, ha⟩

/-- If a statement goes on past another one, this stands in an arm of its own. -/
theorem exists_arm_of_lt_next (hq : q ∈ p.placed) (hlt : q.id < id) (hnext : id < q.next) :
    EntersArm p.arms q.id id := by
  have h : q.GoesPast p.arms (2 + nodeCountOfList p.statements) Graph.exit id :=
    goesPast_of_mem_placedList 2 Graph.exit 0 p.statements q hq hlt hnext
  rcases h with h | ⟨hexit, -⟩
  · exact h
  · rw [hexit] at hnext
    have hid : 2 < id := Nat.lt_of_le_of_lt (two_le_id hq) hlt
    exact absurd (Nat.lt_trans hid hnext) (by decide)

/-- A step ahead in the text that is neither to the next statement nor into an arm of its own. -/
def JumpsAhead (p : Program) (source target : NodeId) : Prop :=
  source < target ∧
    ∀ q ∈ p.placed, q.id = source → target ≠ q.next ∧ q.id + q.statement.nodeCount ≤ target

/-- Without a jump control passes no statement that stands in the same arms. -/
theorem le_of_not_jumpsAhead (hq : q ∈ p.placed) (hjump : ¬ p.JumpsAhead q.id target)
    (hlt : q.id < id) (harms : ∀ a ∈ p.arms, a.Holds id → a.Holds q.id) : target ≤ id := by
  by_contra hpast
  rw [Nat.not_le] at hpast
  have enters : ¬ EntersArm p.arms q.id id := by
    rintro ⟨a, ha, hid, hnot⟩
    exact hnot (harms a ha hid)
  refine hjump ⟨Nat.lt_trans hlt hpast, fun q' hq' hid => ?_⟩
  obtain rfl := eq_of_id_eq hq' hq hid
  refine ⟨fun hnext => enters (exists_arm_of_lt_next hq hlt (hnext ▸ hpast)), ?_⟩
  by_contra hinside
  rw [Nat.not_le] at hinside
  have inside := Placed.entersArm_of_inside hlt (Nat.lt_trans hpast hinside)
  exact enters (inside.mono (arms_subset hq))

end Program
end LineBasic
