import LineBasic.Proofs.Expr.Denotation
import LineBasic.Proofs.Flow.Effects

/-!
# Runs with counters

A run of a program in which `FOR` and `NEXT` count: `FOR` sets its counter and keeps the bound and
the step of the loop, and `NEXT` adds the step to the counter as it finds it. A counter beyond the
bound ends its loop. What `LET`, `FOR` and `NEXT` store is recorded. What else is written (by input,
by an exchange) may be any value. A `NEXT` for a loop that was not entered is an error, so that the
run has no step there.
-/

namespace LineBasic

/-! ## What a run remembers -/

/-- The bound and the step of a loop, as its `FOR` found them. -/
structure LoopBounds where
  stop : ℝ
  step : ℝ

/-- A counter with this value is beyond the bound. -/
def LoopBounds.Passed (loop : LoopBounds) (n : ℝ) : Prop :=
  if 0 ≤ loop.step then loop.stop < n else n < loop.stop

/-- One value that is stored in a scalar. -/
inductive StoreEvent where
  /-- By `LET` or `FOR`. -/
  | set (key : String) (v : Value ℝ)
  /-- By a `NEXT` that finds the counter at `n`. -/
  | count (key : String) (n : ℝ) (loop : LoopBounds)

namespace StoreEvent

def key : StoreEvent → String
  | set key _ | count key .. => key

def value : StoreEvent → Value ℝ
  | set _ v => v
  | count _ n loop => .number (n + loop.step)

end StoreEvent

structure CountingData where
  memory : Memory ℝ
  /-- The loops that are active, by the nodes of their `FOR`s. -/
  active : NodeId → Option LoopBounds
  /-- What was stored, the latest first. -/
  events : List StoreEvent

namespace CountingData

def store (d : CountingData) (e : StoreEvent) : CountingData :=
  { d with memory := Function.update d.memory e.key e.value, events := e :: d.events }

/-- Enters a loop, or leaves it. -/
def setLoop (d : CountingData) (forNode : NodeId) (loop : Option LoopBounds) : CountingData :=
  { d with active := Function.update d.active forNode loop }

section

variable (d : CountingData) (e : StoreEvent) (id : NodeId) (loop : Option LoopBounds)

@[simp] theorem memory_store_self : (d.store e).memory e.key = e.value :=
  Function.update_self ..

@[simp] theorem memory_store_of_ne {key : String} (h : key ≠ e.key) :
    (d.store e).memory key = d.memory key :=
  Function.update_of_ne h ..

@[simp] theorem active_setLoop_self : (d.setLoop id loop).active id = loop :=
  Function.update_self ..

@[simp] theorem active_setLoop_of_ne {id' : NodeId} (h : id' ≠ id) :
    (d.setLoop id loop).active id' = d.active id' :=
  Function.update_of_ne h ..

end

/-- The scalar was stored into. -/
def Stored (d : CountingData) (key : String) : Prop := ∃ e ∈ d.events, e.key = key

theorem stored_store_iff {d : CountingData} {e : StoreEvent} {key : String} :
    (d.store e).Stored key ↔ e.key = key ∨ d.Stored key :=
  List.exists_mem_cons_iff ..

end CountingData

namespace SymbolTable

/-- The scalar holds numbers, as one does that the table does not have. -/
def isNumeric (t : SymbolTable) (key : String) : Bool :=
  (t.scalars[key]?).all fun info => info.type.isNumeric

/-- The scalar takes the value without a type mismatch. -/
def Takes (t : SymbolTable) (key : String) (v : Value ℝ) : Prop :=
  t.isNumeric key = v.number?.isSome

/-- Numbers are zero and strings are empty. -/
def clearedMemory (t : SymbolTable) : Memory ℝ := fun key =>
  if t.isNumeric key then .number 0 else .string ""

/-- Nothing has been executed. -/
def clearedData (t : SymbolTable) : CountingData := ⟨t.clearedMemory, fun _ => none, []⟩

end SymbolTable

/-! ## Steps -/

/--
A `NEXT` steps the counters of the loops that it closes, until one of them is not beyond its bound.
That loop goes on; without one, the program goes on after the `NEXT`.
-/
inductive CountsLoops : List ForLoop → CountingData → Option ForLoop → CountingData → Prop
  | done {d : CountingData} : CountsLoops [] d none d
  | again {l : ForLoop} {rest : List ForLoop} {d : CountingData} {loop : LoopBounds} {n : ℝ} :
    d.active l.forNode = some loop → d.memory l.counter = .number n →
      ¬ loop.Passed (n + loop.step) →
        CountsLoops (l :: rest) d (some l) (d.store (.count l.counter n loop))
  | leave {l : ForLoop} {rest : List ForLoop} {d d' : CountingData} {loop : LoopBounds} {n : ℝ}
      {goesOn : Option ForLoop} :
    d.active l.forNode = some loop → d.memory l.counter = .number n → loop.Passed (n + loop.step) →
      CountsLoops rest ((d.store (.count l.counter n loop)).setLoop l.forNode none) goesOn d' →
        CountsLoops (l :: rest) d goesOn d'

/-- The command stores what is recorded. -/
def Command.isCounting : Command → Bool
  | assign (.scalar _) _ | forLoop .. | next _ => true
  | _ => false

/-- What a `FOR` finds: the first value of its counter, the bound, and the step, which is 1 if there
is none. -/
structure ForDenotes (memory : Memory ℝ) (start stop : Expr Float) (step : Option (Expr Float))
    (first : ℝ) (loop : LoopBounds) : Prop where
  start : start.Denotes memory (.number first)
  stop : stop.Denotes memory (.number loop.stop)
  step : step.elim (loop.step = 1) fun e => e.Denotes memory (.number loop.step)

/-- Control with the data of the run. -/
abbrev CountingState := Graph.StackState × CountingData

/-- The statement that control is at is executed. -/
inductive CountingStep (p : Program) (t : SymbolTable) : CountingState → CountingState → Prop
  | assign {q : Placed} {calls : List NodeId} {control : Graph.StackState} {name : Name}
      {value : Expr Float} {v : Value ℝ} {d : CountingData} :
    q ∈ p.placed → q.statement.command? = some (.assign (.scalar name) value) →
      value.Denotes d.memory v → t.Takes name.key v →
        (Graph.build p).StackStep (q.id, calls) control →
          CountingStep p t ((q.id, calls), d) (control, d.store (.set name.key v))
  | enter {q : Placed} {calls : List NodeId} {counter : Name} {start stop : Expr Float}
      {step : Option (Expr Float)} {first : ℝ} {loop : LoopBounds} {d : CountingData} :
    q ∈ p.placed → q.statement.command? = some (.forLoop counter start stop step) →
      ForDenotes d.memory start stop step first loop → ¬ loop.Passed first →
        (Graph.build p).StackStep (q.id, calls) (q.next, calls) →
          CountingStep p t ((q.id, calls), d)
            ((q.next, calls), (d.store (.set counter.key (.number first))).setLoop q.id (some loop))
  | skip {q : Placed} {calls : List NodeId} {counter : Name} {start stop : Expr Float}
      {step : Option (Expr Float)} {first : ℝ} {loop : LoopBounds} {d : CountingData}
      {l : ForLoop} :
    q ∈ p.placed → q.statement.command? = some (.forLoop counter start stop step) →
      ForDenotes d.memory start stop step first loop → loop.Passed first →
        l ∈ (Graph.build p).forLoops → l.forNode = q.id →
          (Graph.build p).StackStep (q.id, calls) ((Graph.build p).next l.nextNode, calls) →
            CountingStep p t ((q.id, calls), d)
              (((Graph.build p).next l.nextNode, calls),
                (d.store (.set counter.key (.number first))).setLoop q.id none)
  | next {q : Placed} {calls : List NodeId} {counters : List Name} {d d' : CountingData}
      {goesOn : Option ForLoop} {target : NodeId} :
    q ∈ p.placed → q.statement.command? = some (.next counters) →
      CountsLoops ((Graph.build p).loopsClosedBy q.id) d goesOn d' →
        target = goesOn.elim q.next (fun l => (Graph.build p).next l.forNode) →
          -- every counter that is named has its loop, and without a name there is one
          (goesOn = none → max 1 counters.length ≤ ((Graph.build p).loopsClosedBy q.id).length) →
            (Graph.build p).StackStep (q.id, calls) (target, calls) →
              CountingStep p t ((q.id, calls), d) ((target, calls), d')
  | other {id : NodeId} {calls : List NodeId} {control : Graph.StackState} {d : CountingData}
      {memory : Memory ℝ} :
    (∀ q ∈ p.placed, q.id = id → ∀ c, q.statement.command? = some c → c.isCounting = false) →
      (∀ key, ¬ WritesAt ((Graph.build p).effects t) id key → memory key = d.memory key) →
        (Graph.build p).StackStep (id, calls) control →
          CountingStep p t ((id, calls), d) (control, { d with memory })

/-- A run from the entry, where nothing has been executed. -/
abbrev CountingRun (p : Program) (t : SymbolTable) : List CountingState → Prop :=
  History (CountingStep p t) ((Graph.entry, []), t.clearedData)

/-! ## Steps and what is recorded -/

section Steps

variable {p : Program} {t : SymbolTable} {s s' : CountingState} {past : List CountingState}

theorem CountingStep.moves (h : CountingStep p t s s') : (Graph.build p).StackStep s.1 s'.1 := by
  cases h <;> assumption

/-- The nodes of a run with counters are those of a run with a stack. -/
theorem CountingRun.stackRun {run : List CountingState} (h : CountingRun p t run) :
    (Graph.build p).StackRun (run.map Prod.fst) :=
  History.map h CountingStep.moves

theorem CountsLoops.events_subset {loops : List ForLoop} {d d' : CountingData}
    {goesOn : Option ForLoop} (h : CountsLoops loops d goesOn d') : d.events ⊆ d'.events := by
  induction h with
  | done => exact List.Subset.refl _
  | again => exact List.subset_cons_self ..
  | leave _ _ _ _ ih => exact List.Subset.trans (List.subset_cons_self ..) ih

/-- What is recorded stays so. -/
theorem CountingStep.events_subset (h : CountingStep p t s s') : s.2.events ⊆ s'.2.events := by
  cases h with
  | next _ _ hloops => exact hloops.events_subset
  | other => exact List.Subset.refl _
  | _ => exact List.subset_cons_self ..

/-- The step from the entry leaves the data as they are. -/
theorem countingStep_entry {calls : List NodeId} {control : Graph.StackState} (d : CountingData)
    (hmoves : (Graph.build p).StackStep (Graph.entry, calls) control) :
    CountingStep p t ((Graph.entry, calls), d) (control, d) := by
  refine .other (fun q hq hid => ?_) (fun _ _ => rfl) hmoves
  have hpos : 2 ≤ q.id := Program.two_le_id hq
  rw [hid] at hpos
  exact absurd hpos (Nat.not_succ_le_zero 1)

/-! ### A `NEXT` that closes one loop -/

variable {q : Placed} {calls : List NodeId} {counters : List Name} {l : ForLoop} {d : CountingData}
  {loop : LoopBounds} {n : ℝ}

theorem countingStep_again (hq : q ∈ p.placed) (hc : q.statement.command? = some (.next counters))
    (hclosed : (Graph.build p).loopsClosedBy q.id = [l]) (hloop : d.active l.forNode = some loop)
    (hn : d.memory l.counter = .number n) (hwithin : ¬ loop.Passed (n + loop.step))
    (hmoves : (Graph.build p).StackStep (q.id, calls) ((Graph.build p).next l.forNode, calls)) :
    CountingStep p t ((q.id, calls), d)
      (((Graph.build p).next l.forNode, calls), d.store (.count l.counter n loop)) := by
  have counts : CountsLoops ((Graph.build p).loopsClosedBy q.id) d (some l)
      (d.store (.count l.counter n loop)) := by
    rw [hclosed]
    exact .again hloop hn hwithin
  exact .next hq hc counts rfl nofun hmoves

theorem countingStep_leave (hq : q ∈ p.placed) (hc : q.statement.command? = some (.next counters))
    (hclosed : (Graph.build p).loopsClosedBy q.id = [l]) (hloop : d.active l.forNode = some loop)
    (hn : d.memory l.counter = .number n) (hpassed : loop.Passed (n + loop.step))
    (hcounters : counters.length ≤ 1)
    (hmoves : (Graph.build p).StackStep (q.id, calls) (q.next, calls)) :
    CountingStep p t ((q.id, calls), d)
      ((q.next, calls), (d.store (.count l.counter n loop)).setLoop l.forNode none) := by
  have counts : CountsLoops ((Graph.build p).loopsClosedBy q.id) d none
      ((d.store (.count l.counter n loop)).setLoop l.forNode none) := by
    rw [hclosed]
    exact .leave hloop hn hpassed .done
  refine .next hq hc counts rfl (fun _ => ?_) hmoves
  rw [hclosed]
  exact Nat.max_le.2 ⟨Nat.le_refl 1, hcounters⟩

end Steps

end LineBasic
