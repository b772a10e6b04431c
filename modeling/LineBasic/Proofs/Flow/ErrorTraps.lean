import LineBasic.Proofs.Flow.UseCounts

/-!
# Error traps

While an `ON ERROR GOTO` is in force any statement may fail. Control then goes to the line of the
handler with the scalars as they stand, and a `RESUME` retries the statement that failed or goes on
after it (`TrapStep`). A graph knows less of this: a handler is entered from its `ON ERROR GOTO`,
and a `RESUME` goes on after such a statement.

So a dead store may be read in a handler that was set before it (`deadStore_read_by_handler`). What
the graph does cover are the failures that happen after the handler has been set
(`CoveredStep`): no such run reads the value of a dead store (`deadStores_unread_under_traps`).
-/

namespace LineBasic

/-- A node that control has come to, and when. -/
structure Event where
  node : NodeId
  time : Nat
  deriving DecidableEq, Repr

/-- Where a run is, and what it remembers of its past. -/
structure TrapState where
  control : Graph.StackState
  /-- The statement that wrote each scalar last. -/
  origin : String → Option Event
  /-- The `ON ERROR GOTO` in force. -/
  trap : Option Event
  /-- The statement that failed, until a `RESUME`. -/
  failure : Option Event
  time : Nat

/-- What may happen at a statement. -/
inductive TrapMove where
  | execute (control : Graph.StackState)
  /-- The statement fails, and control goes to the line of the trap. -/
  | fail (trap : Event) (line : Nat)
  | retry (failure : Event)
  | skip (failure : Event)

/-- The command may pass control to `target` if `next` comes after it. It does not enter a handler,
and a `RESUME` without a line goes on where a statement has failed. -/
def Command.MayPassTo (next target : NodeId) : Command → Prop
  | .onError _ => target = next
  | .resume .retry | .resume .next => False
  | _ => True

instance (next target : NodeId) : DecidablePred (Command.MayPassTo next target) := fun c => by
  unfold Command.MayPassTo
  split <;> infer_instance

namespace Graph

def command? (g : Graph) (id : NodeId) : Option Command := (g.node? id).bind Node.command?

/-- The node comes after an `ON ERROR GOTO` that sets a handler. -/
def FollowsTrap (g : Graph) (id : NodeId) : Prop :=
  ∃ trap line, g.command? trap = some (.onError line) ∧ line ≠ 0 ∧ g.next trap = id

end Graph

namespace TrapState

def start : TrapState := ⟨(Graph.entry, []), fun _ => none, none, none, 0⟩

def here (s : TrapState) : Event := ⟨s.control.1, s.time⟩

def Allows (g : Graph) (s : TrapState) : TrapMove → Prop
  | .execute control => g.StackStep s.control control ∧
    ∀ c ∈ g.command? s.control.1, c.MayPassTo (g.next s.control.1) control.1
  | .fail trap line => s.trap = some trap ∧ g.command? trap.node = some (.onError line) ∧ line ≠ 0 ∧
    ((g.node? s.control.1).bind Node.statement).isSome
  | .retry failure => s.failure = some failure ∧ g.command? s.control.1 = some (.resume .retry)
  | .skip failure => s.failure = some failure ∧ g.command? s.control.1 = some (.resume .next)

/-- A statement that fails writes nothing, and the active calls stay as they are. -/
def after (g : Graph) (effects : Array Effects) (s : TrapState) : TrapMove → TrapState
  | .execute control =>
    { control
      origin := fun name => if WritesAt effects s.control.1 name then some s.here else s.origin name
      trap := match g.command? s.control.1 with
        | some (.onError line) => if line = 0 then none else some s.here
        | _ => s.trap
      failure := match g.command? s.control.1 with
        | some (.resume _) => none
        | _ => s.failure
      time := s.time + 1 }
  | .fail _ line =>
    { s with
      control := ((Graph.lineEntry? g line).getD Graph.exit, s.control.2)
      failure := some s.here
      time := s.time + 1 }
  | .retry failure =>
    { s with control := (failure.node, s.control.2), failure := none, time := s.time + 1 }
  | .skip failure =>
    { s with control := (g.next failure.node, s.control.2), failure := none, time := s.time + 1 }

def afterAll (g : Graph) (effects : Array Effects) (s : TrapState) (moves : List TrapMove) :
    TrapState := moves.foldl (after g effects) s

/--
What the graph covers, for a scalar that was stored at a given time. Since then, a failure goes to a
handler that was set after the store, and a `RESUME` is for a statement that failed after the store
and, if it is not retried, does not write the scalar. A `RESUME NEXT` goes where the statement could
have passed control itself. Nothing of this is asked of a `RESUME` that goes on after a trap.

At each time, `calls` are the calls that would be active if every handler were entered with those of
its `ON ERROR GOTO` and every `RESUME` brought back those of the failure. It is at a `RETURN` only
that they ask anything of a statement that is executed (`Graph.StackStep.exists_calls`).
-/
def Covers (g : Graph) (effects : Array Effects) (calls : Nat → List NodeId) (name : String)
    (stored : Nat) (s : TrapState) : TrapMove → Prop
  | .execute control => g.StackStep (s.control.1, calls s.time) (control.1, calls (s.time + 1))
  | .fail trap _ => (stored < s.time → stored < trap.time) ∧ calls (s.time + 1) = calls trap.time
  | .retry failure =>
    (stored < s.time → stored < failure.time) ∧ calls (s.time + 1) = calls failure.time ∨
      g.FollowsTrap failure.node ∧ calls (s.time + 1) = calls s.time
  | .skip failure =>
    (stored < s.time → stored < failure.time ∧ ¬ WritesAt effects failure.node name) ∧
        g.StackStep (failure.node, calls failure.time)
          (g.next failure.node, calls (s.time + 1)) ∨
      g.FollowsTrap (g.next failure.node) ∧ calls (s.time + 1) = calls s.time

end TrapState

/-- One step of a run in which statements may fail. -/
def TrapStep (g : Graph) (effects : Array Effects) (s s' : TrapState) : Prop :=
  ∃ m, s.Allows g m ∧ s' = s.after g effects m

/-- A step that the graph covers. -/
def CoveredStep (g : Graph) (effects : Array Effects) (calls : Nat → List NodeId) (name : String)
    (stored : Nat) (s s' : TrapState) : Prop :=
  ∃ m, s.Allows g m ∧ s.Covers g effects calls name stored m ∧ s' = s.after g effects m

/-! ## Edges into handlers and out of them -/

namespace Graph

variable {p : Program} {t : SymbolTable} {id target : NodeId} {c : Command} {line : Nat}

theorem command?_build_eq_some_iff :
    (build p).command? id = some c ↔
      ∃ q ∈ p.placed, q.id = id ∧ q.statement.command? = some c := by
  rw [command?, Option.bind_eq_some_iff]
  constructor
  · rintro ⟨n, hn, hc⟩
    rcases eq_of_node?_build hn with ⟨hs, -⟩ | ⟨q, hq, rfl, rfl⟩
    · simp [Node.command?, hs] at hc
    · exact ⟨q, hq, rfl, hc⟩
  · rintro ⟨q, hq, rfl, hc⟩
    exact ⟨_, node?_build_of_mem_placed hq, hc⟩

/-- An `ON ERROR GOTO` has an edge to the line of its handler. -/
theorem handler_mem_successors (hc : (build p).command? id = some (.onError line))
    (hline : line ≠ 0) :
    ((Graph.lineEntry? (build p) line).getD exit, .errorHandler) ∈ (build p).successors id := by
  obtain ⟨⟨s, id, depth, next⟩, hq, rfl, hqc⟩ := command?_build_eq_some_iff.1 hc
  refine mem_successors_build_iff.2 (Program.mem_edges_of_mem_ownEdges hq ?_)
  cases s with
  | command place body =>
    obtain rfl : body = .onError line := Option.some.inj hqc
    show _ ∈ _ :: if line = 0 then [] else _
    rw [if_neg hline]
    exact List.mem_cons_of_mem _ (List.mem_singleton_self _)
  | conditional => cases hqc

/-- A `RESUME` without a line has edges to what follows the traps. -/
theorem resume_mem_successors {point : ResumePoint}
    (hc : (build p).command? id = some (.resume point)) (hpoint : ∀ line, point ≠ .line line)
    (htarget : (build p).FollowsTrap target) : (target, .resume) ∈ (build p).successors id := by
  obtain ⟨trap, line, htrap, hline, rfl⟩ := htarget
  obtain ⟨q, hq, rfl, hqc⟩ := command?_build_eq_some_iff.1 hc
  obtain ⟨q', hq', rfl, hqc'⟩ := command?_build_eq_some_iff.1 htrap
  rw [next_build_of_mem_placed hq']
  exact mem_successors_build_iff.2 (Program.resume_mem_edges hq hqc hpoint hq' hqc' hline)

theorem WellFormed.command?_id {g : Graph} (hg : g.WellFormed) {n : Node} (hn : n ∈ g.nodes) :
    g.command? n.id = n.command? := by
  rw [command?, hg.node?_id hn, Option.bind_some]

theorem not_writesAt_of_command? (hc : (build p).command? id = some c)
    (hdefs : ∀ closed, (c.effects t closed).defs = []) (name : String) :
    ¬ WritesAt ((build p).effects t) id name := by
  intro h
  obtain ⟨q, hq, rfl, c', hc', hname⟩ := exists_command_of_writesAt h
  obtain ⟨q', hq', hid, hqc⟩ := command?_build_eq_some_iff.1 hc
  obtain rfl := Program.eq_of_id_eq hq hq' hid.symm
  obtain rfl : c' = c := Option.some.inj (hc'.symm.trans hqc)
  rw [hdefs] at hname
  cases hname

/-- A statement that is no `RETURN` passes control on alike, whatever calls are active. -/
theorem StackStep.exists_calls {g : Graph} {s s' : StackState} (h : g.StackStep s s')
    (hs : ¬ g.ReturnAt s.1) (calls : List NodeId) :
    ∃ calls', g.StackStep (s.1, calls) (s'.1, calls') := by
  cases h with
  | call ht => exact ⟨_, .call ht⟩
  | giveBack hr | giveUp hr => exact absurd hr hs
  | along hr hkind ht => exact ⟨calls, .along hr hkind ht⟩

end Graph

/-! ## The graph follows the runs that it covers -/

namespace TrapState

variable {g : Graph} {effects : Array Effects} {calls : Nat → List NodeId} {name : String}
  {store e e' : Event} {held held' : Prop} {s : TrapState} {m : TrapMove}

/-- The run is there, or it may have to go back there. -/
def Remembers (s : TrapState) (e : Event) : Prop :=
  e = s.here ∨ s.trap = some e ∨ s.failure = some e

/-- Some run without failures leads to where the event was and, if the scalar holds what was
stored, has come past the store since. -/
def Brings (g : Graph) (effects : Array Effects) (calls : Nat → List NodeId) (name : String)
    (store : Event) (held : Prop) (e : Event) : Prop :=
  ∃ past, g.StackRun ((e.node, calls e.time) :: past) ∧
    (held → store.time < e.time → HoldsSince effects (past.map Prod.fst) name store.node)

/-- The graph has followed the run up to a state. -/
structure Followed (g : Graph) (effects : Array Effects) (calls : Nat → List NodeId)
    (name : String) (store : Event) (s : TrapState) : Prop where
  store_lt : s.origin name = some store → store.time < s.time
  time_le : ∀ e, s.Remembers e → e.time ≤ s.time
  brings : ∀ e, s.Remembers e → Brings g effects calls name store (s.origin name = some store) e

theorem Brings.step (h : Brings g effects calls name store held e)
    (hstep : g.StackStep (e.node, calls e.time) (e'.node, calls e'.time))
    (hholds : held' → store.time < e'.time → e.node = store.node ∨
      held ∧ store.time < e.time ∧ ¬ WritesAt effects e.node name) :
    Brings g effects calls name store held' e' := by
  obtain ⟨past, hrun, hpast⟩ := h
  refine ⟨_, hrun.step hstep, fun hheld' htime => ?_⟩
  rw [List.map_cons]
  rcases hholds hheld' htime with hnode | ⟨hheld, hlt, hkeeps⟩
  · dsimp only
    rw [hnode]
    exact holdsSince_cons_self _
  · exact (hpast hheld hlt).cons hkeeps

theorem Brings.back (h : Brings g effects calls name store held e)
    (hnode : e'.node = e.node) (hcalls : calls e'.time = calls e.time)
    (hholds : held' → store.time < e'.time → held ∧ store.time < e.time) :
    Brings g effects calls name store held' e' := by
  obtain ⟨past, hrun, hpast⟩ := h
  rw [← hnode, ← hcalls] at hrun
  exact ⟨past, hrun, fun hheld htime => hpast (hholds hheld htime).1 (hholds hheld htime).2⟩

theorem time_after (m : TrapMove) : (s.after g effects m).time = s.time + 1 := by
  cases m <;> rfl

/-- After a step, only what was remembered before is remembered beside the new state. -/
theorem remembers_of_after (h : (s.after g effects m).Remembers e) :
    e = (s.after g effects m).here ∨ s.Remembers e := by
  rcases h with h | h | h
  · exact .inl h
  · right
    cases m with
    | execute control =>
      simp only [after] at h
      split at h
      next line hline =>
        split at h
        next => cases h
        next => exact .inl (Option.some.inj h).symm
      next => exact .inr (.inl h)
    | fail | retry | skip => exact .inr (.inl h)
  · right
    cases m with
    | execute control =>
      simp only [after] at h
      split at h
      next => cases h
      next => exact .inr (.inr h)
    | fail => exact .inl (Option.some.inj h).symm
    | retry | skip => cases h

/-- A scalar keeps its origin unless the statement is executed and writes the scalar. -/
theorem origin_after (name : String) (m : TrapMove) :
    (s.after g effects m).origin name = s.origin name ∨
      (∃ control, m = .execute control) ∧ WritesAt effects s.control.1 name ∧
        (s.after g effects m).origin name = some s.here := by
  cases m with
  | execute control =>
    by_cases hwrites : WritesAt effects s.control.1 name
    · exact .inr ⟨⟨control, rfl⟩, hwrites, if_pos hwrites⟩
    · exact .inl (if_neg hwrites)
  | fail | retry | skip => exact .inl rfl

theorem followed_start (hcalls : calls 0 = []) :
    start.Followed g effects calls name store where
  store_lt h := by cases h
  time_le e he := by
    rcases he with rfl | he | he
    · exact Nat.le_refl _
    all_goals cases he
  brings e he := by
    rcases he with rfl | he | he
    · refine ⟨[], ?_, fun h => by cases h⟩
      show g.StackRun [(Graph.entry, calls 0)]
      rw [hcalls]
      exact .start
    all_goals cases he

section Built

open LineBasic.Graph

variable {p : Program} {t : SymbolTable} {target : NodeId} {point : ResumePoint}

/-- A `RESUME` that goes on after a trap goes along an edge. -/
theorem Followed.brings_resume (hf : s.Followed (build p) ((build p).effects t) calls name store)
    (hc : (build p).command? s.control.1 = some (.resume point))
    (hpoint : ∀ line, point ≠ .line line) (htarget : (build p).FollowsTrap target)
    (hcalls : calls (s.time + 1) = calls s.time) :
    Brings (build p) ((build p).effects t) calls name store (s.origin name = some store)
      ⟨target, s.time + 1⟩ := by
  have hedge := resume_mem_successors hc hpoint htarget
  have hstep := stackStep_of_mem (wellFormed_build p) hedge nofun nofun (calls s.time)
  rw [← hcalls] at hstep
  refine (hf.brings s.here (.inl rfl)).step (by rwa [hcalls] at hstep ⊢) fun hheld _ => .inr ?_
  exact ⟨hheld, hf.store_lt hheld, not_writesAt_of_command? hc (fun _ => rfl) name⟩

/-- What the graph does for the state after a step. -/
theorem Followed.brings_here (hf : s.Followed (build p) ((build p).effects t) calls name store)
    (hallows : s.Allows (build p) m)
    (hcovers : s.Covers (build p) ((build p).effects t) calls name store.time m) :
    Brings (build p) ((build p).effects t) calls name store
      ((s.after (build p) ((build p).effects t) m).origin name = some store)
      (s.after (build p) ((build p).effects t) m).here := by
  cases m with
  | execute control =>
    refine (hf.brings s.here (.inl rfl)).step hcovers fun hheld _ => ?_
    by_cases hwrites : WritesAt ((build p).effects t) s.control.1 name
    · have hstore : some s.here = some store := (if_pos hwrites).symm.trans hheld
      exact .inl (congrArg Event.node (Option.some.inj hstore))
    · have hstore : s.origin name = some store := (if_neg hwrites).symm.trans hheld
      exact .inr ⟨hstore, hf.store_lt hstore, hwrites⟩
  | fail trap line =>
    obtain ⟨htrap, hc, hline, -⟩ := hallows
    obtain ⟨hsince, hcalls⟩ := hcovers
    have hedge := handler_mem_successors hc hline
    have hstep := stackStep_of_mem (wellFormed_build p) hedge nofun nofun (calls trap.time)
    refine (hf.brings trap (.inr (.inl htrap))).step ?_ fun hheld _ => .inr ?_
    · show (build p).StackStep _ (_, calls (s.time + 1))
      rw [hcalls]
      exact hstep
    · exact ⟨hheld, hsince (hf.store_lt hheld), not_writesAt_of_command? hc (fun _ => rfl) name⟩
  | retry failure =>
    obtain ⟨hfailure, hc⟩ := hallows
    rcases hcovers with ⟨hsince, hcalls⟩ | ⟨hfollows, hcalls⟩
    · refine (hf.brings failure (.inr (.inr hfailure))).back rfl hcalls fun hheld _ => ?_
      exact ⟨hheld, hsince (hf.store_lt hheld)⟩
    · exact hf.brings_resume hc nofun hfollows hcalls
  | skip failure =>
    obtain ⟨hfailure, hc⟩ := hallows
    rcases hcovers with ⟨hsince, hstep⟩ | ⟨hfollows, hcalls⟩
    · refine (hf.brings failure (.inr (.inr hfailure))).step hstep fun hheld _ => .inr ?_
      exact ⟨hheld, hsince (hf.store_lt hheld)⟩
    · exact hf.brings_resume hc nofun hfollows hcalls

theorem Followed.after (hf : s.Followed (build p) ((build p).effects t) calls name store)
    (hallows : s.Allows (build p) m)
    (hcovers : s.Covers (build p) ((build p).effects t) calls name store.time m) :
    (s.after (build p) ((build p).effects t) m).Followed (build p) ((build p).effects t) calls name
      store where
  store_lt h := by
    rw [time_after]
    rcases origin_after name m with heq | ⟨-, -, heq⟩
    · exact Nat.lt_succ_of_lt (hf.store_lt (heq.symm.trans h))
    · obtain rfl : s.here = store := Option.some.inj (heq.symm.trans h)
      exact Nat.lt_succ_self _
  time_le e he := by
    rcases remembers_of_after he with rfl | he
    · exact Nat.le_refl _
    · rw [time_after]
      exact Nat.le_succ_of_le (hf.time_le e he)
  brings e he := by
    rcases remembers_of_after he with rfl | he
    · exact hf.brings_here hallows hcovers
    · refine (hf.brings e he).back rfl rfl fun hheld htime => ⟨?_, htime⟩
      rcases origin_after name m with heq | ⟨-, -, heq⟩
      · exact heq.symm.trans hheld
      · -- What is remembered is not later than the statement that has just written the scalar.
        obtain rfl : s.here = store := Option.some.inj (heq.symm.trans hheld)
        exact absurd (hf.time_le e he) (Nat.not_le.2 htime)

theorem followed_of_history (hcalls : calls 0 = []) {past : List TrapState}
    (h : History (CoveredStep (build p) ((build p).effects t) calls name store.time) start
      (s :: past)) :
    s.Followed (build p) ((build p).effects t) calls name store := by
  generalize hrun : s :: past = run at h
  induction h generalizing s past with
  | start =>
    obtain ⟨rfl, -⟩ := List.cons.inj hrun
    exact followed_start hcalls
  | step _ hst ih =>
    obtain ⟨rfl, -⟩ := List.cons.inj hrun
    obtain ⟨m, hallows, hcovers, rfl⟩ := hst
    exact (ih rfl).after hallows hcovers

end Built

end TrapState

/--
On a run that the graph covers since an assignment was executed, its value is not read before the
scalar is written again, if the assignment is a dead store.
-/
theorem deadStores_unread_under_traps (p : Program) (t : SymbolTable) :
    let g := Graph.build p
    let effects := g.effects t
    ∀ s ∈ findSubstitutions g effects, s.isDeadStore = true → ∃ n ∈ g.nodes, ∃ v value,
      n.command? = some (.assign (.scalar v) value) ∧ s.line = n.line ∧ s.name = v.key ∧
      ∀ stored calls state past, calls 0 = [] →
        History (CoveredStep g effects calls v.key stored) .start (state :: past) →
        state.origin v.key = some ⟨n.id, stored⟩ → ¬ ReadsAt effects state.control.1 v.key := by
  intro g effects s hs hdead
  have hg : g.WellFormed := Graph.wellFormed_build p
  obtain ⟨n, hn, v, value, hc, hline, hname, -, hreaders⟩ :=
    Substitution.exists_of_mem_ofSolution hs
  refine ⟨n, hn, v, value, hc, hline, hname, ?_⟩
  intro stored calls state past hcalls hrun horigin hreads
  have hfollowed : state.Followed g effects calls v.key ⟨n.id, stored⟩ :=
    TrapState.followed_of_history hcalls hrun
  obtain ⟨nodes, hstack, hholds⟩ := hfollowed.brings state.here (.inl rfl)
  have hcarries : g.Carries effects v.key n.id state.control.1 :=
    Graph.carries_of_stackRun hg hstack (hholds horigin (hfollowed.store_lt horigin))
  have hcharged := Substitution.mem_readers_of_carries hg (writesAt_of_assign hg hn hc t)
    hcarries hreads
  rw [hreaders hdead] at hcharged
  cases hcharged

/-! ## A trap before the store, and one after it -/

namespace EarlierTrap

/-- `T` is assigned while a trap is in force, and the next statement may fail. -/
def program : Program :=
  let commands : List (Nat × Command) :=
    [(10, .input none none [.scalar ⟨"A"⟩, .scalar ⟨"B"⟩]), (20, .onError 100),
      (30, .assign (.scalar ⟨"T"⟩) (.binary .add (.scalar ⟨"A"⟩) (.scalar ⟨"B"⟩))),
      (40, .assign (.scalar ⟨"X"⟩) (.binary .div (.scalar ⟨"A"⟩) (.scalar ⟨"B"⟩))),
      (50, .assign (.scalar ⟨"T"⟩) (.scalar ⟨"A"⟩)), (60, .endRun),
      (100, .print none [.expr (.scalar ⟨"T"⟩)]), (110, .resume .next)]
  ⟨commands.zipIdx.map fun ((line, c), i) => ⟨line, [.command ⟨line, 4⟩ c], i + 1⟩⟩

def graph : Graph := .build program

def effects : Array Effects := graph.effects (SymbolTable.build program).table

/-- The assignment of line 40 fails. -/
def moves : List TrapMove :=
  [.execute (2, []), .execute (3, []), .execute (4, []), .execute (5, []), .fail ⟨3, 2⟩ 100]

/-- Where the run is after so many moves. -/
def state (n : Nat) : TrapState := TrapState.start.afterAll graph effects (moves.take n)

end EarlierTrap

open EarlierTrap in
/-- The handler reads what the dead store of line 30 has assigned. -/
theorem deadStore_read_by_handler :
    (∃ s ∈ findSubstitutions graph effects, s.line = 30 ∧ s.name = "T" ∧ s.isDeadStore = true) ∧
      graph.lineOf 4 = 30 ∧
      ∃ past, History (TrapStep graph effects) .start (state 5 :: past) ∧
        (state 5).origin "T" = some ⟨4, 3⟩ ∧ ReadsAt effects (state 5).control.1 "T" := by
  have found : (findSubstitutions graph effects).any
      (fun s => s.line == 30 && (s.name == "T" && s.isDeadStore)) = true := by decide +kernel
  have line : graph.lineOf 4 = 30 := by decide +kernel
  have execute (n target : NodeId) {s : TrapState} (hs : s.control = (n, []))
      (hedge : (target, .normal) ∈ graph.successors n)
      (hpasses : ∀ c ∈ graph.command? n, c.MayPassTo (graph.next n) target) :
      TrapStep graph effects s (s.after graph effects (.execute (target, []))) := by
    refine ⟨.execute (target, []), ⟨?_, ?_⟩, rfl⟩
    · rw [hs]
      exact Graph.stackStep_of_normal program hedge []
    · rw [hs]
      exact hpasses
  have entry : TrapStep graph effects .start (state 1) :=
    execute 0 2 rfl (by decide +kernel) (by decide +kernel)
  have input : TrapStep graph effects (state 1) (state 2) :=
    execute 2 3 rfl (by decide +kernel) (by decide +kernel)
  have trap : TrapStep graph effects (state 2) (state 3) :=
    execute 3 4 rfl (by decide +kernel) (by decide +kernel)
  have store : TrapStep graph effects (state 3) (state 4) :=
    execute 4 5 rfl (by decide +kernel) (by decide +kernel)
  have failure : TrapStep graph effects (state 4) (state 5) :=
    ⟨.fail ⟨3, 2⟩ 100, ⟨by decide +kernel, rfl, by decide, by decide +kernel⟩, rfl⟩
  have run := ((((History.start.step entry).step input).step trap).step store).step failure
  obtain ⟨s, hs, hfound⟩ := List.any_eq_true.1 found
  rw [Bool.and_eq_true, Bool.and_eq_true, beq_iff_eq, beq_iff_eq] at hfound
  have hreads : ReadsAt effects 8 "T" := by decide +kernel
  exact ⟨⟨s, hs, hfound⟩, line, _, run, by decide +kernel, hreads⟩

namespace LaterTrap

/-- `T` is assigned before the trap is set, and a subroutine may fail while it is in force. -/
def program : Program :=
  let commands : List (Nat × Command) :=
    [(10, .input none none [.scalar ⟨"A"⟩, .scalar ⟨"B"⟩]),
      (20, .assign (.scalar ⟨"T"⟩) (.binary .add (.scalar ⟨"A"⟩) (.scalar ⟨"B"⟩))),
      (30, .onError 100), (40, .gosub 80), (50, .assign (.scalar ⟨"T"⟩) (.scalar ⟨"A"⟩)),
      (60, .print none [.expr (.scalar ⟨"T"⟩)]), (70, .endRun),
      (80, .assign (.scalar ⟨"X"⟩) (.binary .div (.scalar ⟨"A"⟩) (.scalar ⟨"B"⟩))),
      (90, .returnSub), (100, .print none [.expr (.scalar ⟨"A"⟩)]), (110, .resume .next)]
  ⟨commands.zipIdx.map fun ((line, c), i) => ⟨line, [.command ⟨line, 4⟩ c], i + 1⟩⟩

def graph : Graph := .build program

def effects : Array Effects := graph.effects (SymbolTable.build program).table

/-- The assignment of line 80 fails, and the handler goes on after it. -/
def moves : List TrapMove :=
  [.execute (2, []), .execute (3, []), .execute (4, []), .execute (5, []), .execute (9, [5]),
    .fail ⟨4, 3⟩ 100, .execute (12, [5]), .skip ⟨9, 5⟩, .execute (6, [])]

/-- Where the run is after so many moves. -/
def state (n : Nat) : TrapState := TrapState.start.afterAll graph effects (moves.take n)

/-- The handler is entered with no call active, as when its trap was set. -/
def calls (time : Nat) : List NodeId := if time = 5 ∨ time = 8 then [5] else []

end LaterTrap

open LaterTrap in
/-- The dead store of line 20 is covered through a failure in the subroutine. -/
theorem exists_deadStore_laterTrap :
    ∃ s ∈ findSubstitutions graph effects, s.line = 20 ∧ s.isDeadStore = true ∧
      ∃ past, History (CoveredStep graph effects calls "T" 2) .start (state 9 :: past) ∧
        (state 9).origin "T" = some ⟨3, 2⟩ ∧ ¬ ReadsAt effects (state 9).control.1 "T" := by
  have found : (findSubstitutions graph effects).any
      (fun s => s.line == 20 && s.isDeadStore) = true := by decide +kernel
  obtain ⟨s, hs, hfound⟩ := List.any_eq_true.1 found
  rw [Bool.and_eq_true, beq_iff_eq] at hfound
  obtain ⟨n, hn, v, value, hc, hline, -, hunread⟩ :=
    deadStores_unread_under_traps program _ s hs hfound.2
  have onLine : ∀ m ∈ graph.nodes.toList, m.line = 20 → m.id = 3 := by decide +kernel
  have hid : n.id = 3 := onLine n (Array.mem_toList_iff.2 hn) (hline.symm.trans hfound.1)
  have hcommand : graph.command? 3 =
      some (.assign (.scalar ⟨"T"⟩) (.binary .add (.scalar ⟨"A"⟩) (.scalar ⟨"B"⟩))) := rfl
  have hnode : graph.command? n.id = n.command? :=
    (Graph.wellFormed_build program).command?_id hn
  rw [← hid, hnode, hc] at hcommand
  obtain ⟨⟨rfl⟩, -⟩ := Command.assign.inj (Option.some.inj hcommand)
  have hkey : Name.key ⟨"T"⟩ = "T" := by decide +kernel
  rw [hid, hkey] at hunread
  have along (time id target : Nat) (stack : List NodeId) {s : TrapState}
      (hcontrol : s.control = (id, stack)) (htime : s.time = time)
      (hedge : (target, .normal) ∈ graph.successors id)
      (hpasses : ∀ c ∈ graph.command? id, c.MayPassTo (graph.next id) target)
      (hcalls : calls time = calls (time + 1)) :
      CoveredStep graph effects calls "T" 2 s
        (s.after graph effects (.execute (target, stack))) := by
    refine ⟨.execute (target, stack), ⟨?_, ?_⟩, ?_, rfl⟩
    · rw [hcontrol]
      exact Graph.stackStep_of_normal program hedge stack
    · rw [hcontrol]
      exact hpasses
    · show graph.StackStep (s.control.1, calls s.time) (target, calls (s.time + 1))
      rw [hcontrol, htime, ← hcalls]
      exact Graph.stackStep_of_normal program hedge _
  have entry : CoveredStep graph effects calls "T" 2 .start (state 1) :=
    along 0 0 2 [] rfl rfl (by decide +kernel) (by decide +kernel) rfl
  have input : CoveredStep graph effects calls "T" 2 (state 1) (state 2) :=
    along 1 2 3 [] rfl rfl (by decide +kernel) (by decide +kernel) rfl
  have store : CoveredStep graph effects calls "T" 2 (state 2) (state 3) :=
    along 2 3 4 [] rfl rfl (by decide +kernel) (by decide +kernel) rfl
  have trap : CoveredStep graph effects calls "T" 2 (state 3) (state 4) :=
    along 3 4 5 [] rfl rfl (by decide +kernel) (by decide +kernel) rfl
  have call : CoveredStep graph effects calls "T" 2 (state 4) (state 5) :=
    have hstep : graph.StackStep (5, []) (9, [5]) := .call (by decide +kernel)
    ⟨.execute (9, [5]), ⟨hstep, by decide +kernel⟩, hstep, rfl⟩
  have failure : CoveredStep graph effects calls "T" 2 (state 5) (state 6) :=
    ⟨.fail ⟨4, 3⟩ 100, ⟨by decide +kernel, rfl, by decide, by decide +kernel⟩,
      ⟨fun _ => by decide, rfl⟩, rfl⟩
  have handler : CoveredStep graph effects calls "T" 2 (state 6) (state 7) :=
    along 6 11 12 [5] rfl rfl (by decide +kernel) (by decide +kernel) rfl
  have skip : CoveredStep graph effects calls "T" 2 (state 7) (state 8) :=
    have hstep : graph.StackStep (9, [5]) (10, [5]) :=
      Graph.stackStep_of_normal program (by decide +kernel) [5]
    ⟨.skip ⟨9, 5⟩, ⟨by decide +kernel, rfl⟩,
      .inl ⟨fun _ => ⟨by decide, by decide +kernel⟩, hstep⟩, rfl⟩
  have back : CoveredStep graph effects calls "T" 2 (state 8) (state 9) :=
    have hstep : graph.StackStep (10, [5]) (6, []) :=
      @Graph.StackStep.giveBack _ 10 5 [] ⟨_, rfl, rfl⟩
    ⟨.execute (6, []), ⟨hstep, by decide +kernel⟩, hstep, rfl⟩
  have run := (((((((((History.start.step entry).step input).step store).step trap).step call).step
    failure).step handler).step skip).step back)
  have horigin : (state 9).origin "T" = some ⟨3, 2⟩ := by decide +kernel
  exact ⟨s, hs, hfound.1, hfound.2, _, run, horigin, hunread 2 calls _ _ rfl run horigin⟩

end LineBasic
