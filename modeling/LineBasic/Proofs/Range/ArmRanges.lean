import LineBasic.Proofs.Flow.Execution
import LineBasic.Proofs.Graph.Arms
import LineBasic.Proofs.Range.Condition
import LineBasic.Range.Condition
import LineBasic.Symbol.Build

/-!
# Ranges of arms on runs

A range that is reported for an arm comes from the condition of its `IF` and, where these are still
known, from conditions around it. `Program.armRanges` lists the ranges with the arms that they come
from. On a run that enters the arm the scalar is in the range, if from each of the other arms on it
has not been written (`conditionRanges_hold`). A statement inside a nested arm that writes it is not
noticed, so that without this the scalar may be elsewhere (`conditionRanges_fail`).
-/

namespace LineBasic

/-! ## Where a range comes from -/

/-- An arm of an `IF`. -/
structure Branch where
  /-- The node of the `IF`. -/
  node : NodeId
  isThen : Bool
  deriving DecidableEq, Repr

/-- A range with the arms whose conditions it was learned from. -/
structure LearnedRange where
  range : ValueRange Float
  branches : List Branch

/-- The range where the condition of an arm is known in addition. -/
def LearnedRange.narrow (known : LearnedRange) (b : Branch) (range : ValueRange Float) :
    LearnedRange :=
  ⟨known.range.intersect range, known.branches.insert b⟩

/-- What is known of scalars, the latest first, and where it was learned. -/
abbrev LearnedFacts := List (String × LearnedRange)

namespace LearnedFacts

/-- What is known, without where it was learned. -/
def forget (facts : LearnedFacts) : RangeFacts := facts.map fun (name, fact) => (name, fact.range)

def known? (facts : LearnedFacts) (name : String) : Option LearnedRange := facts.lookup name

def drop (names : List String) (facts : LearnedFacts) : LearnedFacts :=
  facts.filter fun fact => !names.contains fact.1

/-- Adds the constraints of the condition of an arm, and lists what is then known. -/
def learn (b : Branch) (facts : LearnedFacts) :
    List (String × ValueRange Float) → LearnedFacts × LearnedFacts
  | [] => (facts, [])
  | (name, range) :: rest =>
    let fact := (facts.known? name).elim ⟨range, [b]⟩ fun known => known.narrow b range
    let (final, learned) := learn b ((name, fact) :: facts) rest
    (final, (name, fact) :: learned)

end LearnedFacts

/-- A range that is reported for an arm, with the arms whose conditions it was learned from. -/
structure ArmRange where
  found : ConditionRange
  branch : Branch
  branches : List Branch

/-- What is known at the start of an arm, and the ranges that are reported for it. -/
def learnArm (line : Nat) (condition : Expr Float) (b : Branch) (facts : LearnedFacts) :
    LearnedFacts × List ArmRange :=
  let (facts, learned) := facts.learn b (constraints b.isThen condition)
  (facts, learned.map fun (name, fact) =>
    { found := { name, line, isThen := b.isThen, range := fact.range }
      branch := b, branches := fact.branches })

mutual

/-- The ranges in the arms of a statement with the number `id`. -/
def Statement.armRanges (id : Nat) (facts : LearnedFacts) : Statement → List ArmRange
  | .command .. => []
  | .conditional place condition onTrue none =>
    onTrue.armRanges (id + 1) place.line condition ⟨id, true⟩ facts
  | .conditional place condition onTrue (some onFalse) =>
    onTrue.armRanges (id + 1) place.line condition ⟨id, true⟩ facts ++
      onFalse.armRanges (id + 1 + onTrue.nodeCount) place.line condition ⟨id, false⟩ facts

def Arm.armRanges (first line : Nat) (condition : Expr Float) (b : Branch) (facts : LearnedFacts) :
    Arm → List ArmRange
  | .line _ => []
  | .block statements =>
    let (facts, found) := learnArm line condition b facts
    found ++ armRangesOfList first facts statements

def armRangesOfList (id : Nat) (facts : LearnedFacts) : List Statement → List ArmRange
  | [] => []
  | s :: rest =>
    s.armRanges id facts ++ armRangesOfList (id + s.nodeCount) (facts.drop s.writtenScalars) rest

end

/-- The ranges in all arms of a program, with the arms that they come from. -/
def Program.armRanges (p : Program) : List ArmRange :=
  armRangesOfList 2 [] p.statements

/-! ## The ranges are those that are reported -/

namespace LearnedFacts

variable (facts : LearnedFacts)

theorem known?_forget (name : String) :
    facts.forget.known? name = (facts.known? name).map LearnedRange.range := by
  induction facts with
  | nil => rfl
  | cons fact rest ih =>
    obtain ⟨n, fact⟩ := fact
    rw [known?, forget, List.map_cons, RangeFacts.known?, List.lookup_cons, List.lookup_cons]
    cases name == n with
    | true => rfl
    | false => exact ih

theorem forget_drop (names : List String) :
    (facts.drop names).forget = facts.forget.drop names := by
  rw [forget, forget, drop, RangeFacts.drop, List.filter_map]
  rfl

theorem forget_learn (b : Branch) (new : List (String × ValueRange Float)) :
    facts.forget.learn new = ((facts.learn b new).1.forget, (facts.learn b new).2.forget) := by
  induction new generalizing facts with
  | nil => rfl
  | cons c rest ih =>
    obtain ⟨name, range⟩ := c
    have hfact : (facts.forget.known? name).elim range (fun known => known.intersect range) =
        ((facts.known? name).elim ⟨range, [b]⟩ fun known => known.narrow b range).range := by
      rw [known?_forget]
      cases facts.known? name <;> rfl
    have ih := ih ((name, (facts.known? name).elim ⟨range, [b]⟩ fun known =>
      known.narrow b range) :: facts)
    rw [forget, List.map_cons, ← forget] at ih
    rw [RangeFacts.learn, hfact, ih]
    rfl

end LearnedFacts

theorem map_found_learnArm (line : Nat) (condition : Expr Float) (b : Branch)
    (facts : LearnedFacts) : enterArm line condition b.isThen facts.forget =
      ((learnArm line condition b facts).1.forget,
        (learnArm line condition b facts).2.map ArmRange.found) := by
  rw [enterArm, facts.forget_learn b, learnArm, List.map_map]
  simp only [LearnedFacts.forget, List.map_map]
  rfl

mutual

theorem Statement.map_found_armRanges (id : Nat) (facts : LearnedFacts) : ∀ s : Statement,
    (s.armRanges id facts).map ArmRange.found = s.conditionRanges facts.forget
  | .command .. => rfl
  | .conditional _ _ onTrue none => onTrue.map_found_armRanges _ _ _ ⟨id, true⟩ facts
  | .conditional _ _ onTrue (some onFalse) => by
    rw [Statement.armRanges, List.map_append, onTrue.map_found_armRanges,
      onFalse.map_found_armRanges, Statement.conditionRanges]

theorem Arm.map_found_armRanges (first line : Nat) (condition : Expr Float) (b : Branch)
    (facts : LearnedFacts) : ∀ a : Arm,
      (a.armRanges first line condition b facts).map ArmRange.found =
        a.conditionRanges line condition b.isThen facts.forget
  | .line _ => rfl
  | .block statements => by
    rw [Arm.armRanges, Arm.conditionRanges, map_found_learnArm, List.map_append,
      map_found_armRangesOfList]

theorem map_found_armRangesOfList (id : Nat) (facts : LearnedFacts) :
    ∀ statements : List Statement, (armRangesOfList id facts statements).map ArmRange.found =
      conditionRangesOfList facts.forget statements
  | [] => rfl
  | s :: rest => by
    rw [armRangesOfList, conditionRangesOfList, List.map_append, s.map_found_armRanges,
      map_found_armRangesOfList, LearnedFacts.forget_drop]

end

theorem conditionRangesOfList_nil (statements : List Statement) :
    conditionRangesOfList [] statements = statements.flatMap fun s => s.conditionRanges [] := by
  induction statements with
  | nil => rfl
  | cons s rest ih =>
    rw [conditionRangesOfList, List.flatMap_cons, ← ih]
    rfl

/-- The ranges are the reported ones. -/
theorem Program.map_found_armRanges (p : Program) :
    p.armRanges.map ArmRange.found = p.conditionRanges := by
  rw [armRanges, map_found_armRangesOfList, conditionRanges, ← conditionRangesOfList_nil]
  rfl

/-! ## Where the arms stand -/

namespace Branch

/-- The branch is an arm of the statement, which has this condition. -/
structure IsOf (p : Program) (b : Branch) (q : Placed) (condition : Expr Float) : Prop where
  mem : q ∈ p.placed
  id_eq : q.id = b.node
  statement_eq : ∃ place onTrue onFalse, q.statement = .conditional place condition onTrue onFalse

/-- The condition of the arm bounds the scalar. -/
def Bounds (p : Program) (b : Branch) (name : String) : Prop :=
  ∃ q condition, b.IsOf p q condition ∧ ∃ range, (name, range) ∈ constraints b.isThen condition

/-- The arm holds the `count` numbers from `first` on. -/
def Surrounds (p : Program) (b : Branch) (first count : Nat) : Prop :=
  ∃ q condition, b.IsOf p q condition ∧ ∃ span, q.arms[if b.isThen then 0 else 1]? = some span ∧
    span.start ≤ first ∧ first + count ≤ span.stop

theorem Surrounds.mono {p : Program} {b : Branch} {first count first' count' : Nat}
    (h : b.Surrounds p first count) (hfirst : first ≤ first')
    (hend : first' + count' ≤ first + count) : b.Surrounds p first' count' := by
  obtain ⟨q, condition, hq, span, hspan, hstart, hstop⟩ := h
  exact ⟨q, condition, hq, span, hspan, hstart.trans hfirst, hend.trans hstop⟩

end Branch

/-! ## What is known on a run -/

section Runs

variable (p : Program) (t : SymbolTable)

/-- Control is at the `IF`, and the value of the condition leads into the arm. -/
def Branch.Taken (b : Branch) (s : MachineState Float) : Prop :=
  s.control.1 = b.node ∧ ∃ q condition, b.IsOf p q condition ∧
    ∃ n, condition.Denotes s.memory (.number n) ∧ Arithmetic.isZero n = !b.isThen

/-- The run entered the arm, and since then the scalar has not been written. The states are listed
from the latest on. -/
inductive HeldSince (name : String) (b : Branch) : List (MachineState Float) → Prop
  | here {s : MachineState Float} {past : List (MachineState Float)} :
    b.Taken p s → HeldSince name b (s :: past)
  | earlier {s d : MachineState Float} {past : List (MachineState Float)} :
    ¬ WritesAt ((Graph.build p).effects t) d.control.1 name → HeldSince name b (d :: past) →
      HeldSince name b (s :: d :: past)

/-- The scalar is a number in the range. -/
def InRange (memory : Memory Float) (name : String) (range : ValueRange Float) : Prop :=
  ∃ x, memory name = .number x ∧ range.contains x = true

/-- Wherever a run has entered the arms and not written the scalar since, it is in the range. -/
def LearnedRange.HoldsOnRuns (name : String) (fact : LearnedRange) : Prop :=
  ∀ start s past, History (Executes p t) start (s :: past) →
    (∀ b ∈ fact.branches, HeldSince p t name b (s :: past)) → InRange s.memory name fact.range

variable {p t} {name : String} {b : Branch} {range : ValueRange Float} {condition : Expr Float}
  {facts : LearnedFacts} {start s : MachineState Float}

theorem Branch.IsOf.unique {q q' : Placed} {condition' : Expr Float} (h : b.IsOf p q condition)
    (h' : b.IsOf p q' condition') : q = q' ∧ condition = condition' := by
  obtain rfl := Program.eq_of_id_eq h.mem h'.mem (h.id_eq.trans h'.id_eq.symm)
  obtain ⟨_, _, _, hs⟩ := h.statement_eq
  obtain ⟨_, _, _, hs'⟩ := h'.statement_eq
  exact ⟨rfl, (Statement.conditional.inj (hs.symm.trans hs')).2.1⟩

/-- An arm that holds since it was entered has left the scalar in the range of its condition. -/
theorem inRange_of_heldSince {q : Placed} {states : List (MachineState Float)}
    (hb : b.IsOf p q condition) (hrange : (name, range) ∈ constraints b.isThen condition)
    (h : HeldSince p t name b states) (hrun : History (Executes p t) start states) :
    ∀ s ∈ states.head?, InRange s.memory name range := by
  induction h with
  | here htaken =>
    rintro s ⟨rfl⟩
    obtain ⟨-, q', condition', hb', n, hn, hzero⟩ := htaken
    obtain ⟨-, rfl⟩ := hb.unique hb'
    exact mem_range_of_constraints hn (decides_of_isZero hzero) hrange
  | earlier hkeeps _ ih =>
    rintro s ⟨rfl⟩
    obtain ⟨hrest, hstep⟩ := hrun.of_cons_cons
    rw [InRange, hstep.keeps name hkeeps]
    exact ih hrest _ rfl

/-- What is known of a scalar, and where it was learned. -/
structure LearnedRange.Sound (p : Program) (t : SymbolTable) (name : String) (fact : LearnedRange) :
    Prop where
  bounds : ∀ b ∈ fact.branches, b.Bounds p name
  holds : fact.HoldsOnRuns p t name

theorem sound_singleton {q : Placed} (hb : b.IsOf p q condition)
    (hrange : (name, range) ∈ constraints b.isThen condition) :
    LearnedRange.Sound p t name ⟨range, [b]⟩ where
  bounds b' hb' := by
    obtain rfl := List.mem_singleton.1 hb'
    exact ⟨q, condition, hb, range, hrange⟩
  holds start s past hrun hheld :=
    inRange_of_heldSince hb hrange (hheld b (List.mem_singleton_self b)) hrun s rfl

theorem sound_narrow {q : Placed} {known : LearnedRange} (hb : b.IsOf p q condition)
    (hrange : (name, range) ∈ constraints b.isThen condition) (hknown : known.Sound p t name) :
    (known.narrow b range).Sound p t name where
  bounds b' hb' := by
    rcases List.mem_insert_iff.1 hb' with rfl | hb'
    · exact ⟨q, condition, hb, range, hrange⟩
    · exact hknown.bounds b' hb'
  holds start s past hrun hheld := by
    have hold := hknown.holds start s past hrun fun b' hb' =>
      hheld b' (List.mem_insert_of_mem hb')
    have hnew := inRange_of_heldSince hb hrange (hheld b List.mem_insert_self) hrun s rfl
    obtain ⟨x, hx, hold⟩ := hold
    obtain ⟨x', hx', hnew⟩ := hnew
    obtain rfl := Value.number.inj (hx.symm.trans hx')
    exact ⟨x, hx, ValueRange.contains_intersect hold hnew⟩

/-- What holds of all facts, and of each that is learned from a constraint, holds of the learned
ones. -/
theorem forall_mem_learn (holds : String → LearnedRange → Prop) (b : Branch)
    {new : List (String × ValueRange Float)} (hfacts : ∀ fact ∈ facts, holds fact.1 fact.2)
    (hsingle : ∀ name range, (name, range) ∈ new → holds name ⟨range, [b]⟩)
    (hnarrow : ∀ name range known, (name, range) ∈ new → holds name known →
      holds name (known.narrow b range)) :
    (∀ fact ∈ (facts.learn b new).1, holds fact.1 fact.2) ∧
      ∀ fact ∈ (facts.learn b new).2, holds fact.1 fact.2 := by
  induction new generalizing facts with
  | nil => exact ⟨hfacts, nofun⟩
  | cons c rest ih =>
    obtain ⟨name, range⟩ := c
    have hfact : holds name
        ((facts.known? name).elim ⟨range, [b]⟩ fun known => known.narrow b range) := by
      cases hknown : facts.known? name with
      | none => exact hsingle name range List.mem_cons_self
      | some known =>
        obtain ⟨before, after, rfl, -⟩ := List.lookup_eq_some_iff.1 hknown
        exact hnarrow name range known List.mem_cons_self
          (hfacts (name, known) (List.mem_append_right _ List.mem_cons_self))
    have hcons : ∀ fact ∈ (name, (facts.known? name).elim ⟨range, [b]⟩ fun known =>
        known.narrow b range) :: facts, holds fact.1 fact.2 :=
      List.forall_mem_cons.2 ⟨hfact, hfacts⟩
    obtain ⟨hfinal, hlearned⟩ := ih hcons
      (fun name range h => hsingle name range (List.mem_cons_of_mem _ h))
      fun name range known h => hnarrow name range known (List.mem_cons_of_mem _ h)
    refine ⟨hfinal, fun fact h => ?_⟩
    rcases List.mem_cons.1 h with rfl | h
    · exact hfact
    · exact hlearned fact h

/-- What is reported for an arm, and where it comes from. -/
structure ArmRange.Sound (p : Program) (t : SymbolTable) (r : ArmRange) : Prop where
  isArm : r.found.isThen = r.branch.isThen ∧
    ∃ q condition, r.branch.IsOf p q condition ∧ q.statement.line = r.found.line
  bounds : ∀ b ∈ r.branches, b.Bounds p r.found.name
  around : ∀ b ∈ r.branches, b ≠ r.branch → b.Surrounds p r.branch.node 1
  holds : ∀ start s past, History (Executes p t) start (s :: past) →
    (∀ b ∈ r.branches, HeldSince p t r.found.name b (s :: past)) →
    InRange s.memory r.found.name r.found.range

/-- The facts before the `count` statements from `first` on. -/
def LearnedFacts.SoundAt (p : Program) (t : SymbolTable) (facts : LearnedFacts)
    (first count : Nat) : Prop :=
  ∀ fact ∈ facts, fact.2.Sound p t fact.1 ∧ ∀ b ∈ fact.2.branches, b.Surrounds p first count

theorem LearnedFacts.SoundAt.mono {first count first' count' : Nat}
    (h : facts.SoundAt p t first count) (hfirst : first ≤ first')
    (hend : first' + count' ≤ first + count) : facts.SoundAt p t first' count' :=
  fun fact hfact => ⟨(h fact hfact).1, fun b hb => ((h fact hfact).2 b hb).mono hfirst hend⟩

theorem LearnedFacts.SoundAt.drop {first count : Nat} (h : facts.SoundAt p t first count)
    (names : List String) : (facts.drop names).SoundAt p t first count :=
  fun fact hfact => h fact (List.mem_of_mem_filter hfact)

theorem learnArm_sound {q : Placed} {line : Nat} (hb : b.IsOf p q condition)
    (hline : q.statement.line = line) {span : ArmSpan}
    (hspan : q.arms[if b.isThen then 0 else 1]? = some span)
    (hfacts : facts.SoundAt p t q.id q.statement.nodeCount) {count : Nat}
    (hcount : span.start + count = span.stop) :
    (learnArm line condition b facts).1.SoundAt p t span.start count ∧
      ∀ r ∈ (learnArm line condition b facts).2, r.Sound p t := by
  obtain ⟨hstart, hstop⟩ := Placed.span_of_mem_arms (List.mem_of_getElem? hspan)
  let holds (name : String) (fact : LearnedRange) : Prop := fact.Sound p t name ∧
    ∀ b' ∈ fact.branches, b' = b ∨ b'.Surrounds p q.id q.statement.nodeCount
  have hold : ∀ fact ∈ facts, holds fact.1 fact.2 := fun fact hfact =>
    ⟨(hfacts fact hfact).1, fun b' hb' => .inr ((hfacts fact hfact).2 b' hb')⟩
  have hsingle (name : String) (range : ValueRange Float)
      (hrange : (name, range) ∈ constraints b.isThen condition) : holds name ⟨range, [b]⟩ :=
    ⟨sound_singleton hb hrange, fun b' hb' => .inl (List.mem_singleton.1 hb')⟩
  have hnarrow (name : String) (range : ValueRange Float) (known : LearnedRange)
      (hrange : (name, range) ∈ constraints b.isThen condition) (hknown : holds name known) :
      holds name (known.narrow b range) := by
    refine ⟨sound_narrow hb hrange hknown.1, fun b' hb' => ?_⟩
    rcases List.mem_insert_iff.1 hb' with h | h
    · exact .inl h
    · exact hknown.2 b' h
  obtain ⟨hfinal, hlearned⟩ := forall_mem_learn holds b hold hsingle hnarrow
  constructor
  · intro fact hfact
    refine ⟨(hfinal fact hfact).1, fun b' hb' => ?_⟩
    rcases (hfinal fact hfact).2 b' hb' with rfl | h
    · exact ⟨q, condition, hb, span, hspan, Nat.le_refl _, hcount.le⟩
    · exact h.mono (Nat.le_of_lt hstart) (hcount ▸ hstop)
  · intro r hr
    obtain ⟨⟨name, fact⟩, hfact, rfl⟩ := List.mem_map.1 hr
    obtain ⟨hsound, haround⟩ := hlearned _ hfact
    refine ⟨⟨rfl, q, condition, hb, hline⟩, hsound.bounds, fun b' hb' hne => ?_, hsound.holds⟩
    rw [← hb.id_eq]
    exact ((haround b' hb').resolve_left hne).mono (Nat.le_refl _)
      (Nat.add_le_add_left q.statement.nodeCount_pos _)

mutual

theorem Statement.armRanges_sound (id next depth : Nat) : ∀ (s : Statement) (facts : LearnedFacts),
    s.placed id next depth ⊆ p.placed → facts.SoundAt p t id s.nodeCount →
      ∀ r ∈ s.armRanges id facts, r.Sound p t
  | .command .., _, _, _ => nofun
  | .conditional place condition onTrue none, facts, hsub, hfacts => by
    rw [Statement.placed, List.cons_subset] at hsub
    exact onTrue.armRanges_sound (id + 1) next (depth + 1) facts hsub.2
      ⟨hsub.1, rfl, place, onTrue, none, rfl⟩ rfl rfl hfacts
  | .conditional place condition onTrue (some onFalse), facts, hsub, hfacts => by
    rw [Statement.placed, List.cons_subset, List.append_subset] at hsub
    obtain ⟨hmem, htrue, hfalse⟩ := hsub
    have isOf (isThen : Bool) : Branch.IsOf p ⟨id, isThen⟩
        ⟨.conditional place condition onTrue (some onFalse), id, depth, next⟩ condition :=
      ⟨hmem, rfl, place, onTrue, some onFalse, rfl⟩
    intro r hr
    rcases List.mem_append.1 hr with hr | hr
    · exact onTrue.armRanges_sound (id + 1) next (depth + 1) facts htrue (isOf true) rfl rfl
        hfacts r hr
    · exact onFalse.armRanges_sound (id + 1 + onTrue.nodeCount) next (depth + 1) facts hfalse
        (isOf false) rfl rfl hfacts r hr

theorem Arm.armRanges_sound (first next depth : Nat) {q : Placed} {line : Nat}
    {condition : Expr Float} {b : Branch} : ∀ (a : Arm) (facts : LearnedFacts),
      a.placed first next depth ⊆ p.placed → b.IsOf p q condition → q.statement.line = line →
        q.arms[if b.isThen then 0 else 1]? = some ⟨first, first + a.nodeCount⟩ →
          facts.SoundAt p t q.id q.statement.nodeCount →
            ∀ r ∈ a.armRanges first line condition b facts, r.Sound p t
  | .line _, _, _, _, _, _, _ => nofun
  | .block statements, facts, hsub, hb, hline, hspan, hfacts => by
    rw [Arm.nodeCount] at hspan
    obtain ⟨hinside, hfound⟩ := learnArm_sound hb hline hspan hfacts rfl
    intro r hr
    rcases List.mem_append.1 hr with hr | hr
    · exact hfound r hr
    · exact armRangesOfList_sound first next depth statements _ hsub hinside r hr

theorem armRangesOfList_sound (id next depth : Nat) :
    ∀ (statements : List Statement) (facts : LearnedFacts),
      placedList id next depth statements ⊆ p.placed →
        facts.SoundAt p t id (nodeCountOfList statements) →
          ∀ r ∈ armRangesOfList id facts statements, r.Sound p t
  | [], _, _, _ => nofun
  | s :: rest, facts, hsub, hfacts => by
    rw [placedList, List.append_subset] at hsub
    rw [nodeCountOfList] at hfacts
    intro r hr
    rcases List.mem_append.1 hr with hr | hr
    · exact s.armRanges_sound id _ depth facts hsub.1
        (hfacts.mono (Nat.le_refl _) (Nat.add_le_add_left (Nat.le_add_right _ _) _)) r hr
    · refine armRangesOfList_sound (id + s.nodeCount) next depth rest _ hsub.2 ?_ r hr
      exact (hfacts.drop _).mono (Nat.le_add_right _ _) (Nat.add_assoc _ _ _).le

end

/--
Each reported range holds on every run that enters its arm, if from every other arm on that it comes
from the scalar was not written. These arms hold the `IF`, and their conditions bound the scalar.
-/
theorem conditionRanges_hold (p : Program) (t : SymbolTable) :
    p.armRanges.map ArmRange.found = p.conditionRanges ∧
      ∀ r ∈ p.armRanges,
        (r.found.isThen = r.branch.isThen ∧
          ∃ q condition, r.branch.IsOf p q condition ∧ q.statement.line = r.found.line) ∧
        (∀ b ∈ r.branches, b.Bounds p r.found.name ∧
          (b ≠ r.branch → b.Surrounds p r.branch.node 1)) ∧
        ∀ start s past, History (Executes p t) start (s :: past) → r.branch.Taken p s →
          (∀ b ∈ r.branches, b ≠ r.branch → HeldSince p t r.found.name b (s :: past)) →
            InRange s.memory r.found.name r.found.range := by
  refine ⟨p.map_found_armRanges, fun r hr => ?_⟩
  have sound : r.Sound p t := armRangesOfList_sound 2 Graph.exit 0 p.statements []
    (List.Subset.refl _) nofun r hr
  refine ⟨sound.isArm, fun b hb => ⟨sound.bounds b hb, sound.around b hb⟩, ?_⟩
  intro start s past hrun htaken hheld
  refine sound.holds start s past hrun fun b hb => ?_
  by_cases hown : b = r.branch
  · exact hown ▸ .here htaken
  · exact hheld b hb hown

end Runs

/-! ## A nested condition, and an assignment in between -/

namespace SampleArms

/-- The scalar `X` compared with a number. -/
def compared (op : BinaryOp) (c : Float) (text : String) : Expr Float :=
  .binary op (.scalar ⟨"X"⟩) (.number c text)

/-- The condition `IF X < 10 THEN PRINT X`. -/
def inner : Statement :=
  .conditional ⟨20, 44⟩ (compared .lt 10 "10")
    (.block [.command ⟨20, 59⟩ (.print none [.expr (.scalar ⟨"X"⟩)])]) none

/-- The lines `INPUT X, Y`, then `IF X > 5 THEN` with the statements in between and the inner
condition, then `END`, then `PRINT Y`. -/
def program (between : List Statement) : Program :=
  ⟨[⟨10, [.command ⟨10, 4⟩ (.input none none [.scalar ⟨"X"⟩, .scalar ⟨"Y"⟩])], 1⟩,
    ⟨20, [.conditional ⟨20, 4⟩ (compared .gt 5 "5") (.block (between ++ [inner])) none], 2⟩,
    ⟨30, [.command ⟨30, 4⟩ .endRun], 3⟩,
    ⟨40, [.command ⟨40, 4⟩ (.print none [.expr (.scalar ⟨"Y"⟩)])], 4⟩]⟩

/-- The assignment `X = 0`. -/
def clear : Statement := .command ⟨20, 28⟩ (.assign (.scalar ⟨"X"⟩) (.number 0 "0"))

/-- The condition `IF Y THEN X = 0 ELSE 40`. -/
def reset : Statement := .conditional ⟨20, 18⟩ (.scalar ⟨"Y"⟩) (.block [clear]) (some (.line 40))

def table (between : List Statement) : SymbolTable := (SymbolTable.build (program between)).table

/-- All scalars are zero. -/
def zeros : Memory Float := fun _ => .number 0

/-- After the input of 6 and 1. -/
def entered : Memory Float :=
  Function.update (Function.update zeros (Name.key ⟨"X"⟩) (.number 6)) (Name.key ⟨"Y"⟩) (.number 1)

/-- After the assignment. -/
def cleared : Memory Float := Function.update entered (Name.key ⟨"X"⟩) (.number 0)

theorem entered_x : entered (Name.key ⟨"X"⟩) = .number 6 := by
  have hne : Name.key ⟨"X"⟩ ≠ Name.key ⟨"Y"⟩ := by decide +kernel
  rw [entered, Function.update_of_ne hne, Function.update_self]

theorem cleared_x : cleared (Name.key ⟨"X"⟩) = .number 0 := Function.update_self ..

/-- Control is at a node that no subroutine was called for. -/
def state (id : NodeId) (memory : Memory Float) : MachineState Float := ⟨(id, []), memory⟩

/-- The run to the outer condition. -/
theorem history_entered (between : List Statement)
    (hentry : (2, .normal) ∈ (Graph.build (program between)).successors Graph.entry)
    (hnext : (3, .normal) ∈ (Graph.build (program between)).successors 2) :
    History (Executes (program between) (table between)) (state Graph.entry zeros)
      [state 3 entered, state 2 zeros, state Graph.entry zeros] := by
  have toInput := Graph.stackStep_of_normal (program between) hentry []
  have toOuter := Graph.stackStep_of_normal (program between) hnext []
  have first : (⟨.command ⟨10, 4⟩ (.input none none [.scalar ⟨"X"⟩, .scalar ⟨"Y"⟩]), 2, 0, 3⟩ :
      Placed) ∈ (program between).placed := List.mem_cons_self
  refine (History.start.step (executes_entry zeros toInput)).step
    (executes_of_agree first nofun toOuter fun key hkey => ?_)
  -- the input writes both scalars
  have hn := Array.mem_of_getElem? (Graph.node?_build_of_mem_placed first)
  have hfx := (Graph.wellFormed_build (program between)).getElem?_effects_of_command hn rfl
    (table between)
  have hX : key ≠ Name.key ⟨"X"⟩ := fun h => hkey ⟨_, hfx, h ▸ List.mem_cons_self⟩
  have hY : key ≠ Name.key ⟨"Y"⟩ := fun h =>
    hkey ⟨_, hfx, h ▸ List.mem_cons_of_mem _ List.mem_cons_self⟩
  rw [entered, Function.update_of_ne hY, Function.update_of_ne hX]

/-- The value of a comparison of `X`. -/
theorem denotes_compared {op : BinaryOp} (hop : op.isRelational = true) {c x : Float}
    (text : String) {memory : Memory Float} (hx : memory (Name.key ⟨"X"⟩) = .number x)
    (hlegal : (Value.number x).Legal) (hc : (Value.number c).Legal) :
    (compared op c text).Denotes memory (.number (Arithmetic.truth (op.compares x c))) := by
  refine ⟨.number x, .number c, ⟨hx.symm, hlegal⟩, ⟨c, rfl, rfl, hc⟩,
    BinaryOp.compares_of_isRelational hop x c, ?_⟩
  cases op.compares x c <;> decide +kernel

/-- Where `X` compares as it should, the arm after `THEN` is taken. -/
theorem taken_compared {between : List Statement} {id depth next : NodeId} {place : Place}
    {onTrue : Arm} {op : BinaryOp} (hop : op.isRelational = true) {c x : Float} {text : String}
    (hq : ⟨.conditional place (compared op c text) onTrue none, id, depth, next⟩ ∈
      (program between).placed)
    {memory : Memory Float} (hx : memory (Name.key ⟨"X"⟩) = .number x)
    (hlegal : (Value.number x).Legal) (hc : (Value.number c).Legal)
    (hcompares : op.compares x c = true) :
    Branch.Taken (program between) ⟨id, true⟩ (state id memory) := by
  refine ⟨rfl, _, _, ⟨hq, rfl, place, onTrue, none, rfl⟩, _,
    denotes_compared hop text hx hlegal hc, ?_⟩
  rw [Number.isZero_truth, hcompares]

/-- A range of `X` in the arm of a condition, learned from the conditions of these arms. -/
theorem exists_armRange (between : List Statement) (b : Branch) (branches : List Branch)
    (h : ((program between).armRanges.any fun r => r.branch == b && r.found.name == "X" &&
      r.branches == branches && !r.found.range.contains 0) = true) :
    ∃ r ∈ (program between).armRanges, r.branch = b ∧ r.found.name = "X" ∧
      r.branches = branches ∧ r.found.range.contains 0 = false := by
  obtain ⟨r, hr, h⟩ := List.any_eq_true.1 h
  simp only [Bool.and_eq_true, beq_iff_eq, Bool.not_eq_true'] at h
  exact ⟨r, hr, h.1.1.1, h.1.1.2, h.1.2, h.2⟩

end SampleArms

open SampleArms in
/-- With nothing in between, the run into the inner arm finds `X` between 5 and 10. -/
theorem exists_inRange_nestedArm :
    ∃ r ∈ (program []).armRanges, r.branch = ⟨4, true⟩ ∧ r.found.name = "X" ∧
      r.found.range.contains 0 = false ∧
      ∃ past, History (Executes (program []) (table [])) (state Graph.entry zeros)
          (state 4 entered :: past) ∧
        InRange entered "X" r.found.range := by
  obtain ⟨r, hr, hbranch, hname, hbranches, hzero⟩ :=
    exists_armRange [] ⟨4, true⟩ [⟨4, true⟩, ⟨3, true⟩] (by decide +kernel)
  obtain ⟨-, -, hruns⟩ := (conditionRanges_hold (program []) (table [])).2 r hr
  have outer := List.mem_of_getElem? (rfl : (program []).placed[1]? =
    some ⟨.conditional ⟨20, 4⟩ (compared .gt 5 "5") (.block [inner]) none, 3, 0, 6⟩)
  have inside := List.mem_of_getElem? (rfl : (program []).placed[2]? = some ⟨inner, 4, 1, 6⟩)
  have run := history_entered [] (by decide +kernel) (by decide +kernel)
  have edge : (4, .thenArm) ∈ (Graph.build (program [])).successors 3 := by decide +kernel
  have toInner := Graph.stackStep_of_mem (Graph.wellFormed_build _) edge nofun nofun []
  have run := run.step (executes_of_ne_assign outer nofun entered toInner)
  have takenOuter : Branch.Taken (program []) ⟨3, true⟩ (state 3 entered) :=
    taken_compared rfl outer entered_x (by decide +kernel) (by decide +kernel) (by decide +kernel)
  have takenInner : Branch.Taken (program []) ⟨4, true⟩ (state 4 entered) :=
    taken_compared rfl inside entered_x (by decide +kernel) (by decide +kernel) (by decide +kernel)
  have keeps : ¬ WritesAt ((Graph.build (program [])).effects (table [])) 3 "X" := by
    have none : (((Graph.build (program [])).effects (table []))[3]?).all
        (fun fx => !fx.writes "X") = true := by decide +kernel
    rintro ⟨fx, hfx, hwrites⟩
    rw [hfx] at none
    simp [Effects.writes, hwrites] at none
  refine ⟨r, hr, hbranch, hname, hzero, _, run, ?_⟩
  rw [hbranch, hname, hbranches] at hruns
  refine hruns _ _ _ run takenInner fun b hb hne => ?_
  obtain rfl : b = ⟨3, true⟩ := by
    rcases List.mem_cons.1 hb with h | h
    · exact absurd h hne
    · exact List.mem_singleton.1 h
  exact .earlier keeps (.here takenOuter)

open SampleArms in
/-- The assignment inside a nested arm clears `X`, but the inner arm is said to have it above 5. -/
theorem conditionRanges_fail :
    ∃ r ∈ (program [reset]).armRanges, r.found ∈ (program [reset]).conditionRanges ∧
      r.branch = ⟨6, true⟩ ∧ r.found.name = "X" ∧
      ∃ past, History (Executes (program [reset]) (table [reset])) (state Graph.entry zeros)
          (state 6 cleared :: past) ∧
        r.branch.Taken (program [reset]) (state 6 cleared) ∧
        ¬ InRange cleared "X" r.found.range := by
  obtain ⟨r, hr, hbranch, hname, -, hzero⟩ :=
    exists_armRange [reset] ⟨6, true⟩ [⟨6, true⟩, ⟨3, true⟩] (by decide +kernel)
  have hfound : r.found ∈ (program [reset]).conditionRanges :=
    (program [reset]).map_found_armRanges ▸ List.mem_map_of_mem hr
  have outer := List.mem_of_getElem? (rfl : (program [reset]).placed[1]? =
    some ⟨.conditional ⟨20, 4⟩ (compared .gt 5 "5") (.block [reset, inner]) none, 3, 0, 8⟩)
  have nested := List.mem_of_getElem? (rfl : (program [reset]).placed[2]? = some ⟨reset, 4, 1, 6⟩)
  have assignment := List.mem_of_getElem? (rfl : (program [reset]).placed[3]? =
    some ⟨clear, 5, 2, 6⟩)
  have inside := List.mem_of_getElem? (rfl : (program [reset]).placed[4]? =
    some ⟨inner, 6, 1, 8⟩)
  have step {id target : NodeId} (kind : EdgeKind)
      (h : (target, kind) ∈ (Graph.build (program [reset])).successors id) (hcall : kind ≠ .call)
      (hback : kind ≠ .back) : (Graph.build (program [reset])).StackStep (id, []) (target, []) :=
    Graph.stackStep_of_mem (Graph.wellFormed_build _) h hcall hback []
  have toNested : (Graph.build (program [reset])).StackStep (3, []) (4, []) :=
    step .thenArm (by decide +kernel) nofun nofun
  have toAssignment : (Graph.build (program [reset])).StackStep (4, []) (5, []) :=
    step .thenArm (by decide +kernel) nofun nofun
  have toInner : (Graph.build (program [reset])).StackStep (5, []) (6, []) :=
    step .normal (by decide +kernel) nofun nofun
  have denotes : (Expr.number 0 "0").Denotes entered (.number 0) := ⟨0, rfl, rfl, by decide +kernel⟩
  have run := (((history_entered [reset] (by decide +kernel) (by decide +kernel)).step
    (executes_of_ne_assign outer nofun entered toNested)).step
      (executes_of_ne_assign nested nofun entered toAssignment)).step
        (executes_assign assignment rfl toInner denotes)
  refine ⟨r, hr, hfound, hbranch, hname, _, run, ?_, ?_⟩
  · rw [hbranch]
    exact taken_compared rfl inside cleared_x (by decide +kernel) (by decide +kernel)
      (by decide +kernel)
  · rintro ⟨x, hx, hcontains⟩
    have key : "X" = Name.key ⟨"X"⟩ := by decide +kernel
    rw [key, cleared_x] at hx
    obtain rfl : 0 = x := Value.number.inj hx
    rw [hzero] at hcontains
    cases hcontains

end LineBasic
