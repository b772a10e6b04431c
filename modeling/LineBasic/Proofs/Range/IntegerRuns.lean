import LineBasic.Proofs.Flow.Counting
import LineBasic.Proofs.Flow.Reachable
import LineBasic.Proofs.Range.Inference
import LineBasic.Proofs.Range.Integer
import LineBasic.Symbol.Build

/-!
# Integer ranges on runs

The rounds come to an end for every graph and every limit, and the states in which they end are
inductive: an assignment that can be reached has, when it is evaluated in these states, an interval
within the one of the scalar that it assigns to. Scalars for which there is no such interval are
unknown, and have no range (`inferIntegerRanges_inductive`).

The states in which the rounds settle hold on every run with counters: what is stored in a scalar
with a range is an integer in it (`integerRanges_hold`). The analysis takes two things for granted
here. A scalar that is read before it was stored has zero in its range, and no `NEXT` finds its
counter beyond the bound. Both may fail, the one in a program that stores into a scalar after it is
read, the other in one that assigns to a counter inside its loop (`integerRanges_fail`).
-/

namespace LineBasic

/-! ## What is stored -/

namespace Stored

/-- The expressions whose values decide what is stored. -/
def expressions : Stored → List (Expr Float)
  | value e => [e]
  | counter start stop step => start :: stop :: step.toList
  | anything => []

/-- The interval of a counter holds its first values, and the bounds with the step added. -/
theorem interval?_counter {states : String → RangeState} {start stop : Expr Float}
    {step : Option (Expr Float)} {i : Interval}
    (h : (counter start stop step).interval? states = some i) :
    ∃ first last : Interval, ∃ c : Int,
      start.interval? states = some first ∧ stop.interval? states = some last ∧
        step.elim (c = 1) (fun e => ∃ j, e.interval? states = some j ∧ j.only? = some c) ∧
        (∀ n ∈ first, n ∈ i) ∧ ∀ n ∈ last, n + c ∈ i := by
  have ends {c : Int} (h : (do
      let stop ← stop.interval? states
      let last ← Interval.withinReach? (stop.lo + c) (stop.hi + c)
      let start ← start.interval? states
      return (start.hull stop).hull last) = some i) :
      ∃ first last : Interval, start.interval? states = some first ∧
        stop.interval? states = some last ∧ (∀ n ∈ first, n ∈ i) ∧ ∀ n ∈ last, n + c ∈ i := by
    simp only [bind, Option.bind_eq_some_iff] at h
    obtain ⟨last, hlast, beyond, hbeyond, first, hfirst, hi⟩ := h
    obtain rfl := Option.some.inj hi
    refine ⟨first, last, hfirst, hlast, fun n hn => ?_, fun n hn => ?_⟩
    · exact Interval.mem_hull_left (Interval.mem_hull_left hn _) _
    · exact Interval.mem_hull_right _ (Interval.mem_of_withinReach? hbeyond
        (Int.add_le_add_right hn.1 c) (Int.add_le_add_right hn.2 c))
  cases step with
  | none =>
    obtain ⟨first, last, hfirst, hlast, hends⟩ := ends h
    exact ⟨first, last, 1, hfirst, hlast, rfl, hends⟩
  | some e =>
    obtain ⟨j, hj, h⟩ := Option.bind_eq_some_iff.1 h
    obtain ⟨c, hc, h⟩ := Option.bind_eq_some_iff.1 h
    obtain ⟨first, last, hfirst, hlast, hends⟩ := ends h
    exact ⟨first, last, c, hfirst, hlast, ⟨j, hj, (Option.filter_eq_some_iff.1 hc).1⟩, hends⟩

end Stored

/-- What a program may store, at the nodes that can be reached. -/
def Graph.stores (g : Graph) : List (String × Stored) :=
  (g.nodes.toList.filter fun n => g.isReachable n.id).flatMap fun n =>
    n.command?.elim [] Command.stores

theorem Graph.mem_stores_of_mem_nodes {g : Graph} {node : Node} (hnode : node ∈ g.nodes)
    (hreach : g.isReachable node.id = true) {c : Command} (hc : node.command? = some c)
    {st : String × Stored} (hst : st ∈ c.stores) : st ∈ g.stores := by
  refine List.mem_flatMap.2
    ⟨node, List.mem_filter.2 ⟨Array.mem_toList_iff.2 hnode, hreach⟩, ?_⟩
  rw [hc]
  exact hst

theorem Graph.mem_stores {p : Program} {q : Placed} (hq : q ∈ p.placed)
    (hreach : (build p).isReachable q.id = true) {c : Command}
    (hc : q.statement.command? = some c) {st : String × Stored} (hst : st ∈ c.stores) :
    st ∈ (build p).stores :=
  mem_stores_of_mem_nodes (Array.mem_of_getElem? (node?_build_of_mem_placed hq)) hreach hc hst

/-- The states in which the rounds settle for a program. -/
def Program.rangeStates (p : Program) (t : SymbolTable) (limit : Nat) : RangeStates :=
  .final t (Graph.build p).stores limit

theorem ranges_inferIntegerRanges (p : Program) (t : SymbolTable) (limit : Nat) :
    (inferIntegerRanges (Graph.build p) t limit).ranges = (p.rangeStates t limit).ranges := rfl

/-- Where a scalar has a range, what is stored in it has an interval inside of it. -/
theorem Program.exists_interval_of_mem_stores {p : Program} {t : SymbolTable} {limit : Nat}
    {key : String} {stored : Stored} (h : (key, stored) ∈ (Graph.build p).stores) {i : Interval}
    (hi : (p.rangeStates t limit).stateOf key = .bounded i) :
    ∃ j, stored.interval? (p.rangeStates t limit).stateOf = some j ∧ ∀ n ∈ j, n ∈ i := by
  have hjoin := RangeStates.join_eq_of_mem_stores t limit h
  rw [rangeStates] at hi
  rw [hi] at hjoin
  exact RangeState.exists_of_join_eq hjoin

theorem RangeStates.stateOf_of_mem_ranges {states : RangeStates} {r : IntegerRange}
    (h : r ∈ states.ranges) : states.stateOf r.name = .bounded ⟨r.min, r.max⟩ := by
  obtain ⟨⟨name, state⟩, hstate, hr⟩ := List.mem_filterMap.1 h
  have hget : states[name]? = some state := Std.ExtTreeMap.mem_toList_iff_getElem?_eq_some.1 hstate
  cases state with
  | bounded i =>
    obtain ⟨width, -, rfl⟩ := Option.map_eq_some_iff.1 hr
    rw [stateOf, hget]
    rfl
  | _ => cases hr

/-! ## The final states are inductive -/

/-- What a command fills with values that the program does not compute. -/
def Command.filled : Command → List (Target Float)
  | input _ _ targets | read targets => targets
  | lineInput _ _ target => [target]
  | swap left right => [left, right]
  | _ => []

theorem Command.mem_stores_of_mem_filled {c : Command} {target : Target Float} {key : String}
    (h : target ∈ c.filled) (hkey : target.scalarKey? = some key) :
    (key, .anything) ∈ c.stores := by
  have anyInto {targets : List (Target Float)} (h : target ∈ targets) :
      (key, .anything) ∈ stores.anyInto targets :=
    List.mem_filterMap.2 ⟨target, h, by rw [hkey]; rfl⟩
  cases c <;> first | exact anyInto h | cases h

namespace RangeStates

variable {t : SymbolTable} {stores : List (String × Stored)} {limit : Nat} {key : String}
  {stored : Stored}

/-- A scalar that is assigned is unknown, or its interval holds what is assigned. -/
theorem unknown_or_isWithin (t : SymbolTable) (limit : Nat) (h : (key, stored) ∈ stores) :
    (final t stores limit).stateOf key = .unknown ∨
      ∃ i j, (final t stores limit).stateOf key = .bounded i ∧
        stored.interval? (final t stores limit).stateOf = some j ∧ j.isWithin i = true := by
  cases hstate : (final t stores limit).stateOf key with
  | unassigned => exact absurd hstate (stateOf_ne_unassigned h)
  | bounded i =>
    have hjoin := join_eq_of_mem_stores t limit h
    rw [hstate] at hjoin
    obtain ⟨j, hj, hwithin⟩ := RangeState.exists_isWithin_of_join_eq hjoin
    exact .inr ⟨i, j, rfl, hj, hwithin⟩
  | unknown => exact .inl rfl

/-- A scalar that is filled is unknown. -/
theorem stateOf_eq_unknown (t : SymbolTable) (limit : Nat) (h : (key, .anything) ∈ stores) :
    (final t stores limit).stateOf key = .unknown := by
  obtain hunknown | ⟨_, _, -, hj, -⟩ := unknown_or_isWithin t limit h
  · exact hunknown
  · cases hj

theorem ne_name_of_unknown {states : RangeStates} (h : states.stateOf key = .unknown)
    {r : IntegerRange} (hr : r ∈ states.ranges) : r.name ≠ key := by
  rintro rfl
  cases h.symm.trans (stateOf_of_mem_ranges hr)

end RangeStates

/-- The rounds end in states that are inductive, and only these are reported. -/
theorem inferIntegerRanges_inductive (g : Graph) (t : SymbolTable) (limit : Nat) :
    ∃ final : RangeStates, RangeStates.Settles g.stores limit 0 (.start t g.stores) final ∧
      (inferIntegerRanges g t limit).ranges = final.ranges ∧
      ∀ node ∈ g.nodes, g.isReachable node.id = true → ∀ c, node.command? = some c →
        (∀ key stored, (key, stored) ∈ c.stores →
          final.stateOf key = .unknown ∧ (∀ r ∈ final.ranges, r.name ≠ key) ∨
            ∃ i j, final.stateOf key = .bounded i ∧ stored.interval? final.stateOf = some j ∧
              j.isWithin i = true) ∧
        ∀ target ∈ c.filled, ∀ r ∈ final.ranges, target.scalarKey? ≠ some r.name := by
  refine ⟨.final t g.stores limit, RangeStates.settles_final t g.stores limit, rfl, ?_⟩
  intro node hnode hreach c hc
  have hstores {st : String × Stored} (hst : st ∈ c.stores) : st ∈ g.stores :=
    Graph.mem_stores_of_mem_nodes hnode hreach hc hst
  refine ⟨fun key stored hst => ?_, fun target htarget r hr hkey => ?_⟩
  · obtain hunknown | hbounded := RangeStates.unknown_or_isWithin t limit (hstores hst)
    · exact .inl ⟨hunknown, fun r => RangeStates.ne_name_of_unknown hunknown⟩
    · exact .inr hbounded
  · have hst := hstores (Command.mem_stores_of_mem_filled htarget hkey)
    exact RangeStates.ne_name_of_unknown (RangeStates.stateOf_eq_unknown t limit hst) hr rfl

/-! ## What the states say of values -/

namespace RangeState

/-- The value is an integer in the interval, if the state has one. -/
def Holds (s : RangeState) (v : Value ℝ) : Prop :=
  ∀ i, s = bounded i → ∃ n, v = .number n ∧ i.Admits n

/-- The bound and the step are integers, and their sum is in the interval. -/
def Ends (s : RangeState) (loop : LoopBounds) : Prop :=
  ∀ i, s = bounded i → ∃ b c : Int, loop = ⟨b, c⟩ ∧ b + c ∈ i

/-- A counter that is not beyond the bound may be stepped. -/
theorem Ends.holds_count {s : RangeState} {loop : LoopBounds} {n : ℝ} (hends : s.Ends loop)
    (hn : s.Holds (.number n)) (hpassed : ∀ i, s = bounded i → ¬ loop.Passed n) :
    s.Holds (.number (n + loop.step)) := by
  intro i hi
  obtain ⟨b, c, rfl, hlast⟩ := hends i hi
  obtain ⟨m, hm, a, ha, rfl⟩ := hn i hi
  obtain rfl := Value.number.inj hm
  refine ⟨_, rfl, a + c, ?_, (Int.cast_add a c).symm⟩
  have hbound : if 0 ≤ c then a ≤ b else b ≤ a := by
    have hpassed := hpassed i hi
    simp only [LoopBounds.Passed, Arithmetic.ofInt_real] at hpassed
    split
    next hc =>
      rw [if_pos (Int.cast_nonneg_iff.2 hc), Int.cast_lt] at hpassed
      exact Int.not_lt.1 hpassed
    next hc =>
      rw [if_neg (mt Int.cast_nonneg_iff.1 hc), Int.cast_lt] at hpassed
      exact Int.not_lt.1 hpassed
  have hlo := hlast.1
  have hhi := hlast.2
  have halo := ha.1
  have hahi := ha.2
  split at hbound <;> exact ⟨by omega, by omega⟩

end RangeState

/-! ## The invariant -/

section Runs

variable {p : Program} {t : SymbolTable} {limit : Nat}

namespace CountingData

/-- The scalar was stored into, or zero is in its range. -/
def Ready (d : CountingData) (states : RangeStates) (key : String) : Prop :=
  ∀ i, states.stateOf key = .bounded i → 0 ∈ i ∨ d.Stored key

/-- A loop whose `FOR` stored its counter, with a bound and a step that its state allows. -/
def LoopWithin (p : Program) (t : SymbolTable) (limit : Nat) (d : CountingData) (id : NodeId)
    (loop : LoopBounds) : Prop :=
  ∃ q ∈ p.placed, q.id = id ∧ ∃ counter start stop step,
    q.statement.command? = some (.forLoop counter start stop step) ∧
      d.Stored counter.key ∧ ((p.rangeStates t limit).stateOf counter.key).Ends loop

/-- The data agree with the states of a program. -/
structure Within (p : Program) (t : SymbolTable) (limit : Nat) (d : CountingData) : Prop where
  assigned : ∀ e ∈ d.events, (p.rangeStates t limit).stateOf e.key ≠ .unassigned
  holds : ∀ e ∈ d.events, ((p.rangeStates t limit).stateOf e.key).Holds e.value
  /-- A scalar has a value that was stored or, if there is none, the first. -/
  latest : ∀ key, (p.rangeStates t limit).stateOf key ≠ .unknown →
    (∃ e ∈ d.events, e.key = key ∧ e.value = d.memory key) ∨
      ¬ d.Stored key ∧ d.memory key = t.clearedMemory key
  loops : ∀ id loop, d.active id = some loop → d.LoopWithin p t limit id loop

variable {d : CountingData}

theorem within_cleared (p : Program) (t : SymbolTable) (limit : Nat) :
    t.clearedData.Within p t limit where
  assigned := nofun
  holds := nofun
  latest _ _ := .inr ⟨fun ⟨_, he, _⟩ => List.not_mem_nil he, rfl⟩
  loops := nofun

theorem Within.store {e : StoreEvent} (h : d.Within p t limit)
    (hassigned : (p.rangeStates t limit).stateOf e.key ≠ .unassigned)
    (hholds : ((p.rangeStates t limit).stateOf e.key).Holds e.value) :
    (d.store e).Within p t limit where
  assigned := List.forall_mem_cons.2 ⟨hassigned, h.assigned⟩
  holds := List.forall_mem_cons.2 ⟨hholds, h.holds⟩
  latest key hkey := by
    by_cases he : key = e.key
    · exact .inl ⟨e, List.mem_cons_self, he.symm, by rw [he, memory_store_self]⟩
    · rw [memory_store_of_ne d e he, stored_store_iff, or_iff_right (Ne.symm he)]
      refine (h.latest key hkey).imp_left ?_
      rintro ⟨e', he', hlatest⟩
      exact ⟨e', List.mem_cons_of_mem _ he', hlatest⟩
  loops id loop hloop := by
    obtain ⟨q, hq, hid, counter, start, stop, step, hc, hstored, hends⟩ := h.loops id loop hloop
    exact ⟨q, hq, hid, counter, start, stop, step, hc, stored_store_iff.2 (.inr hstored), hends⟩

theorem Within.setLoop (h : d.Within p t limit) {id : NodeId} {loop : Option LoopBounds}
    (hloop : ∀ bounds, loop = some bounds → d.LoopWithin p t limit id bounds) :
    (d.setLoop id loop).Within p t limit where
  assigned := h.assigned
  holds := h.holds
  latest := h.latest
  loops id' bounds hbounds := by
    by_cases hid : id' = id
    · subst hid
      rw [active_setLoop_self] at hbounds
      exact hloop bounds hbounds
    · rw [active_setLoop_of_ne d id loop hid] at hbounds
      exact h.loops id' bounds hbounds

/-- A scalar that was stored has a value of its state. -/
theorem Within.holds_memory (h : d.Within p t limit) {key : String} (hkey : d.Stored key) :
    ((p.rangeStates t limit).stateOf key).Holds (d.memory key) := by
  intro i hi
  rcases h.latest key (by rw [hi]; nofun) with ⟨e, he, rfl, hvalue⟩ | ⟨hnot, -⟩
  · exact hvalue ▸ h.holds e he i hi
  · exact absurd hkey hnot

/-- A scalar that is ready has a value in the interval of its state. -/
theorem Within.admittedBy (h : d.Within p t limit) {key : String}
    (hready : d.Ready (p.rangeStates t limit) key) :
    (d.memory key).AdmittedBy ((p.rangeStates t limit).stateOf key).interval? := by
  -- a scalar that was not stored is zero
  have zero {i : Interval} (hi : 0 ∈ i) (hmemory : d.memory key = t.clearedMemory key) :
      (d.memory key).AdmittedBy (some i) := by
    rintro _ n ⟨rfl⟩ hn
    rw [hmemory, SymbolTable.clearedMemory] at hn
    split at hn
    · exact ⟨0, hi, (Value.number.inj hn).symm.trans Int.cast_zero.symm⟩
    · cases hn
  cases hstate : (p.rangeStates t limit).stateOf key with
  | unknown => exact Value.admittedBy_none _
  | unassigned =>
    rcases h.latest key (by rw [hstate]; nofun) with ⟨e, he, rfl, -⟩ | ⟨-, hmemory⟩
    · exact absurd hstate (h.assigned e he)
    · exact zero (Interval.mem_point 0) hmemory
  | bounded i =>
    rcases h.latest key (by rw [hstate]; nofun) with ⟨e, he, rfl, hvalue⟩ | ⟨hnot, hmemory⟩
    · obtain ⟨n, hn, hadmits⟩ := h.holds e he i hstate
      rw [← hvalue, hn]
      exact Value.admittedBy_some_iff.2 hadmits
    · exact zero ((hready i hstate).resolve_right hnot) hmemory

/-- A value of an expression that the interval of a state absorbs. -/
theorem Within.admits_of_denotes (h : d.Within p t limit) {e : Expr Float} {n : ℝ} {i : Interval}
    (hready : ∀ read, .scalar read ∈ e.subterms → d.Ready (p.rangeStates t limit) read.key)
    (hi : e.interval? (p.rangeStates t limit).stateOf = some i)
    (hn : e.Denotes d.memory (.number n)) : i.Admits n :=
  Expr.admitted_of_denotes (fun read hread => h.admittedBy (hready read hread)) hn i n hi rfl

/-- A `LET` stores a value of the state. -/
theorem Within.store_of_denotes (h : d.Within p t limit) {key : String} {e : Expr Float}
    {v : Value ℝ} (hstores : (key, .value e) ∈ (Graph.build p).stores)
    (hready : (∃ i, (p.rangeStates t limit).stateOf key = .bounded i) →
      ∀ read, .scalar read ∈ e.subterms → d.Ready (p.rangeStates t limit) read.key)
    (hv : e.Denotes d.memory v) (htakes : t.Takes key v) :
    (d.store (.set key v)).Within p t limit := by
  refine h.store (RangeStates.stateOf_ne_unassigned hstores) fun i hi => ?_
  obtain ⟨j, hj, hsub⟩ := Program.exists_interval_of_mem_stores hstores hi
  have hnumeric : v.number?.isSome = true :=
    htakes.symm.trans (RangeStates.isNumeric_of_bounded hi)
  obtain ⟨n, hn⟩ := Option.isSome_iff_exists.1 hnumeric
  obtain rfl := Value.number?_eq_some_iff.1 hn
  obtain ⟨a, ha, rfl⟩ := h.admits_of_denotes (hready ⟨i, hi⟩) hj hv
  exact ⟨_, rfl, a, hsub a ha, rfl⟩

/-- A `FOR` stores a value of the state of its counter, which also has the one after the loop. -/
theorem Within.store_of_forDenotes (h : d.Within p t limit) {key : String}
    {start stop : Expr Float} {step : Option (Expr Float)} {first : ℝ} {loop : LoopBounds}
    (hstores : (key, .counter start stop step) ∈ (Graph.build p).stores)
    (hready : (∃ i, (p.rangeStates t limit).stateOf key = .bounded i) →
      ∀ e ∈ start :: stop :: step.toList, ∀ read, .scalar read ∈ e.subterms →
        d.Ready (p.rangeStates t limit) read.key)
    (hfor : ForDenotes d.memory start stop step first loop) :
    (d.store (.set key (.number first))).Within p t limit ∧
      ((p.rangeStates t limit).stateOf key).Ends loop := by
  have found (i : Interval) (hi : (p.rangeStates t limit).stateOf key = .bounded i) :
      i.Admits first ∧ ∃ b c : Int, loop = ⟨b, c⟩ ∧ b + c ∈ i := by
    have hready := hready ⟨i, hi⟩
    obtain ⟨j, hj, hsub⟩ := Program.exists_interval_of_mem_stores hstores hi
    obtain ⟨starts, stops, c, hstarts, hstops, hstep, hfirst, hlast⟩ := Stored.interval?_counter hj
    obtain ⟨a, ha, rfl⟩ := h.admits_of_denotes (hready _ List.mem_cons_self) hstarts hfor.start
    obtain ⟨b, hb, hbound⟩ := h.admits_of_denotes
      (hready _ (List.mem_cons_of_mem _ List.mem_cons_self)) hstops hfor.stop
    refine ⟨⟨a, hsub a (hfirst a ha), rfl⟩, b, c, ?_, hsub _ (hlast b hb)⟩
    have hincrement : loop.step = c := by
      cases step with
      | none =>
        obtain rfl : c = 1 := hstep
        exact hfor.step.trans Int.cast_one.symm
      | some e =>
        obtain ⟨k, hk, honly⟩ := hstep
        have hmem : e ∈ start :: stop :: (some e).toList :=
          List.mem_cons_of_mem _ (List.mem_cons_of_mem _ List.mem_cons_self)
        obtain ⟨m, hm, hvalue⟩ := h.admits_of_denotes (hready e hmem) hk hfor.step
        exact hvalue.trans (congrArg Int.cast (Interval.eq_of_only? honly hm))
    obtain ⟨stop, step⟩ := loop
    obtain rfl : stop = b := hbound
    obtain rfl : step = c := hincrement
    rfl
  refine ⟨h.store (RangeStates.stateOf_ne_unassigned hstores) fun i hi => ?_, fun i hi => ?_⟩
  · exact ⟨first, rfl, (found i hi).1⟩
  · exact (found i hi).2

end CountingData

/-! ## Steps keep it -/

/-- No `NEXT` found a counter with a range beyond the bound of its loop. -/
def CountsWithin (states : RangeStates) (events : List StoreEvent) : Prop :=
  ∀ key n loop, .count key n loop ∈ events →
    (∃ i, states.stateOf key = .bounded i) → ¬ loop.Passed n

/-- The statement that control is at stores no value of a scalar that is not ready in one with a
range. -/
def ReadsReady (p : Program) (states : RangeStates) (s : CountingState) : Prop :=
  ∀ q ∈ p.placed, q.id = s.1.1 → ∀ c, q.statement.command? = some c →
    ∀ key stored, (key, stored) ∈ c.stores → (∃ i, states.stateOf key = .bounded i) →
      ∀ e ∈ stored.expressions, ∀ read, .scalar read ∈ e.subterms → s.2.Ready states read.key

variable {s s' : CountingState} {past : List CountingState}

theorem CountsLoops.within {loops : List ForLoop} {d d' : CountingData} {goesOn : Option ForLoop}
    (h : CountsLoops loops d goesOn d') (hloops : loops ⊆ p.matchedLoops.forLoops)
    (hcounts : CountsWithin (p.rangeStates t limit) d'.events) (hd : d.Within p t limit) :
    d'.Within p t limit := by
  -- one counter that is stepped
  have count {l : ForLoop} {d : CountingData} {loop : LoopBounds} {n : ℝ}
      (hl : l ∈ p.matchedLoops.forLoops) (hloop : d.active l.forNode = some loop)
      (hn : d.memory l.counter = .number n)
      (hmem : .count l.counter n loop ∈ d'.events) (hd : d.Within p t limit) :
      (d.store (.count l.counter n loop)).Within p t limit := by
    obtain ⟨q, hq, hid, counter, start, stop, step, hc, hstored, hends⟩ := hd.loops _ _ hloop
    obtain ⟨q', hq', hid', _, hc', name, start', stop', step', rfl, hkey⟩ :=
      Program.exists_for_of_mem_forLoops hl
    obtain rfl := Program.eq_of_id_eq hq hq' (hid.trans hid'.symm)
    obtain ⟨rfl, -⟩ := Command.forLoop.inj (Option.some.inj (hc'.symm.trans hc))
    rw [hkey] at hstored hends
    have hmemory := hd.holds_memory hstored
    rw [hn] at hmemory
    refine hd.store ?_ (hends.holds_count hmemory fun i hi => hcounts _ _ _ hmem ⟨i, hi⟩)
    obtain ⟨e, he, hekey⟩ := hstored
    exact hekey ▸ hd.assigned e he
  induction h with
  | done => exact hd
  | again hloop hn _ => exact count (hloops List.mem_cons_self) hloop hn List.mem_cons_self hd
  | leave hloop hn _ hrest ih =>
    have hmem := hrest.events_subset List.mem_cons_self
    have hstepped := count (hloops List.mem_cons_self) hloop hn hmem hd
    exact ih (List.subset_of_cons_subset hloops) hcounts (hstepped.setLoop nofun) count

/-- What a command writes that does not count is not known. -/
theorem Command.mem_stores_of_mem_defs {c : Command} (hc : c.isCounting = false) {t : SymbolTable}
    {closed : List ForLoop} {key : String} (h : key ∈ (c.effects t closed).defs) :
    (key, .anything) ∈ c.stores := by
  cases c with
  | assign target value =>
    cases target with
    | scalar => cases hc
    | element => cases h
  | input _ _ targets | read targets =>
    obtain ⟨target, htarget, hkey⟩ := List.mem_filterMap.1 h
    exact List.mem_filterMap.2 ⟨target, htarget, by rw [hkey]; rfl⟩
  | lineInput _ _ target =>
    obtain ⟨target, htarget, hkey⟩ := List.mem_filterMap.1 h
    exact List.mem_filterMap.2 ⟨target, htarget, by rw [hkey]; rfl⟩
  | swap left right =>
    obtain ⟨target, htarget, hkey⟩ := List.mem_filterMap.1 h
    exact List.mem_filterMap.2 ⟨target, htarget, by rw [hkey]; rfl⟩
  | forLoop | next => cases hc
  | _ => cases h

/-- What a statement writes that does not count has no range. -/
theorem stateOf_eq_unknown_of_writesAt {id : NodeId} {key : String}
    (hreach : (Graph.build p).isReachable id = true)
    (hid : ∀ q ∈ p.placed, q.id = id → ∀ c, q.statement.command? = some c → c.isCounting = false)
    (h : WritesAt ((Graph.build p).effects t) id key) :
    (p.rangeStates t limit).stateOf key = .unknown := by
  obtain ⟨q, hq, rfl, c, hc, hkey⟩ := Graph.exists_command_of_writesAt h
  have hstores : (key, .anything) ∈ (Graph.build p).stores :=
    Graph.mem_stores hq hreach hc (Command.mem_stores_of_mem_defs (hid q hq rfl c hc) hkey)
  have hjoin := RangeStates.join_eq_of_mem_stores t limit hstores
  rw [Program.rangeStates, ← hjoin]
  cases (RangeStates.final t (Graph.build p).stores limit).stateOf key <;> rfl

/-- A step keeps the invariant. -/
theorem CountingStep.within (h : CountingStep p t s s')
    (hreach : (Graph.build p).isReachable s.1.1 = true)
    (hreads : ReadsReady p (p.rangeStates t limit) s)
    (hcounts : CountsWithin (p.rangeStates t limit) s'.2.events) (hd : s.2.Within p t limit) :
    s'.2.Within p t limit := by
  cases h with
  | @assign q calls control name value v d hq hc hv htakes =>
    have hstores : (name.key, Stored.value value) ∈ (Graph.build p).stores :=
      Graph.mem_stores hq hreach hc List.mem_cons_self
    refine hd.store_of_denotes hstores (fun hi => ?_) hv htakes
    exact hreads q hq rfl _ hc _ _ List.mem_cons_self hi value List.mem_cons_self
  | @enter q calls counter start stop step first loop d hq hc hfor =>
    have hstores : (counter.key, Stored.counter start stop step) ∈ (Graph.build p).stores :=
      Graph.mem_stores hq hreach hc List.mem_cons_self
    obtain ⟨hstored, hends⟩ := hd.store_of_forDenotes hstores
      (hreads q hq rfl _ hc _ _ List.mem_cons_self) hfor
    refine hstored.setLoop fun _ hloop => ?_
    obtain rfl := Option.some.inj hloop
    exact ⟨q, hq, rfl, counter, start, stop, step, hc,
      CountingData.stored_store_iff.2 (.inl rfl), hends⟩
  | @skip q calls counter start stop step first loop d l hq hc hfor =>
    have hstores : (counter.key, Stored.counter start stop step) ∈ (Graph.build p).stores :=
      Graph.mem_stores hq hreach hc List.mem_cons_self
    obtain ⟨hstored, -⟩ := hd.store_of_forDenotes hstores
      (hreads q hq rfl _ hc _ _ List.mem_cons_self) hfor
    exact hstored.setLoop nofun
  | next hq hc hloops =>
    exact hloops.within (List.filter_subset_self ..) hcounts hd
  | @other id calls control d memory hc hmemory =>
    refine ⟨hd.assigned, hd.holds, fun key hkey => ?_, hd.loops⟩
    have hkeeps : memory key = d.memory key := hmemory key fun hwrites =>
      hkey (stateOf_eq_unknown_of_writesAt hreach hc hwrites)
    dsimp only
    rw [hkeeps]
    exact hd.latest key hkey

/-- A run keeps the invariant. -/
theorem CountingRun.within (h : CountingRun p t (s :: past))
    (hreads : ∀ m ∈ past, ReadsReady p (p.rangeStates t limit) m)
    (hcounts : CountsWithin (p.rangeStates t limit) s.2.events) : s.2.Within p t limit := by
  generalize hrun : s :: past = run at h
  induction h generalizing s past with
  | start =>
    obtain ⟨rfl, -⟩ := List.cons.inj hrun
    exact CountingData.within_cleared p t limit
  | @step m s past hpast hst ih =>
    obtain ⟨rfl, rfl⟩ := List.cons.inj hrun
    rw [List.forall_mem_cons] at hreads
    have hm : m.2.Within p t limit := ih hreads.2
      (fun key n loop hmem => hcounts key n loop (hst.events_subset hmem)) rfl
    exact hst.within (CountingRun.stackRun hpast).isReachable hreads.1 hcounts hm

/--
What a run stores in a scalar with a range is an integer in it, if what is read for it was stored
before or has zero in its range, and if no `NEXT` finds a counter beyond the bound.
-/
theorem integerRanges_hold (p : Program) (t : SymbolTable) (limit : Nat) {s : CountingState}
    {past : List CountingState} (hrun : CountingRun p t (s :: past))
    (hreads : ∀ m ∈ past, ReadsReady p (p.rangeStates t limit) m)
    (hcounts : CountsWithin (p.rangeStates t limit) s.2.events) :
    ∀ r ∈ (inferIntegerRanges (Graph.build p) t limit).ranges, ∀ e ∈ s.2.events, e.key = r.name →
      ∃ n : Int, e.value = .number (n : ℝ) ∧ r.min ≤ n ∧ n ≤ r.max := by
  intro r hr e he hkey
  rw [ranges_inferIntegerRanges] at hr
  have hstate := RangeStates.stateOf_of_mem_ranges hr
  obtain ⟨_, hvalue, n, ⟨hlo, hhi⟩, rfl⟩ :=
    (hrun.within hreads hcounts).holds e he _ (hkey ▸ hstate)
  exact ⟨n, hvalue, hlo, hhi⟩

end Runs

/-! ## A loop, and two programs whose ranges are too narrow -/

namespace SampleCounter

/-- A number of the text. -/
def literal (x : Float) (text : String) : Expr Float := .number x text

/-- The statement `FOR I = 1 TO 10`. -/
def opening : Statement :=
  .command ⟨10, 4⟩ (.forLoop ⟨"I"⟩ (literal 1 "1") (literal 10 "10") none)

/-- The loop `FOR I = 1 TO 10` with a body. -/
def program (body : List ProgramLine) : Program :=
  ⟨⟨10, [opening], 1⟩ :: (body ++ [⟨30, [.command ⟨30, 4⟩ (.next [⟨"I"⟩])], 3⟩])⟩

/-- The assignment `I = 255`. -/
def jumpAhead : Statement := .command ⟨20, 4⟩ (.assign (.scalar ⟨"I"⟩) (literal 255 "255"))

/-- The lines `M = 7`, then `X = N - M`, then `N = 5`. -/
def late : Program :=
  ⟨[⟨10, [.command ⟨10, 4⟩ (.assign (.scalar ⟨"M"⟩) (literal 7 "7"))], 1⟩,
    ⟨20, [.command ⟨20, 4⟩ (.assign (.scalar ⟨"X"⟩)
      (.binary .sub (.scalar ⟨"N"⟩) (.scalar ⟨"M"⟩)))], 2⟩,
    ⟨30, [.command ⟨30, 4⟩ (.assign (.scalar ⟨"N"⟩) (literal 5 "5"))], 3⟩]⟩

def table (p : Program) : SymbolTable := (SymbolTable.build p).table

/-- What is inferred with the usual number of rounds. -/
def ranges (p : Program) : List IntegerRange :=
  (inferIntegerRanges (Graph.build p) (table p) 10).ranges

def bounds : LoopBounds := ⟨10, 1⟩

/-- After the `FOR`, which is the first statement. -/
def entered (body : List ProgramLine) : CountingData :=
  ((table (program body)).clearedData.store (.set (Name.key ⟨"I"⟩) (.number 1))).setLoop 2
    (some bounds)

theorem key_i : Name.key ⟨"I"⟩ = "I" := by decide +kernel

theorem denotes_literal {x : Float} {n : Int} (h : Arithmetic.integer? x = some n) (text : String)
    (memory : Memory ℝ) : (literal x text).Denotes memory (.number (n : ℝ)) :=
  ⟨n, Arithmetic.literal?_of_integer? h, rfl, decide_eq_true rfl⟩

theorem forDenotes_opening (memory : Memory ℝ) :
    ForDenotes memory (literal 1 "1") (literal 10 "10") none 1 bounds where
  start := by
    have one : Arithmetic.integer? (1 : Float) = some 1 := rfl
    simpa using denotes_literal one "1" memory
  stop := by
    have ten : Arithmetic.integer? (10 : Float) = some 10 := rfl
    simpa [bounds] using denotes_literal ten "10" memory
  step := rfl

theorem passed_bounds_iff {n : ℝ} : bounds.Passed n ↔ 10 < n := by
  simp [LoopBounds.Passed, bounds]

theorem takes_number {t : SymbolTable} {key : String} (h : t.isNumeric key = true) (n : ℝ) :
    t.Takes key (.number n) := h

theorem memory_set_i (d : CountingData) (v : Value ℝ) :
    (d.store (.set (Name.key ⟨"I"⟩) v)).memory "I" = v := by
  rw [key_i]
  exact CountingData.memory_store_self d (.set "I" v)

theorem active_entered (body : List ProgramLine) : (entered body).active 2 = some bounds :=
  CountingData.active_setLoop_self ..

/-- The run into the body of the loop. -/
theorem countingRun_entered (body : List ProgramLine)
    (hq : ⟨opening, 2, 0, 3⟩ ∈ (program body).placed)
    (hentry : (2, .normal) ∈ (Graph.build (program body)).successors Graph.entry)
    (hnext : (3, .normal) ∈ (Graph.build (program body)).successors 2) :
    CountingRun (program body) (table (program body))
      [((3, []), entered body), ((2, []), (table (program body)).clearedData),
        ((Graph.entry, []), (table (program body)).clearedData)] := by
  have toFor := Graph.stackStep_of_normal (program body) hentry []
  have toBody := Graph.stackStep_of_normal (program body) hnext []
  have first : ¬ bounds.Passed 1 := by norm_num [passed_bounds_iff]
  exact (History.start.step (countingStep_entry _ toFor)).step
    (.enter hq rfl (forDenotes_opening _) first toBody)

/-- A value outside a range that is reported for its scalar is stored. -/
def Exceeds (p : Program) (r : IntegerRange) (e : StoreEvent) : Prop :=
  r ∈ ranges p ∧ ∃ s past, CountingRun p (table p) (s :: past) ∧ e ∈ s.2.events ∧ e.key = r.name ∧
    ∀ n : Int, e.value = .number (n : ℝ) → ¬ (r.min ≤ n ∧ n ≤ r.max)

/-- The loop with the assignment in its body. -/
def assigning : Program := program [⟨20, [jumpAhead], 2⟩]

/-- The `NEXT` finds the counter at 255, beyond the bound, and stores 256. -/
theorem exceeds_assigning : Exceeds assigning ⟨"I", 1, 255, .uint8⟩ (.count "I" 255 bounds) := by
  refine ⟨by decide +kernel, ?_⟩
  have first := List.mem_of_getElem? (rfl : assigning.placed[0]? = some ⟨opening, 2, 0, 3⟩)
  have inside := List.mem_of_getElem? (rfl : assigning.placed[1]? = some ⟨jumpAhead, 3, 0, 4⟩)
  have closing := List.mem_of_getElem? (rfl : assigning.placed[2]? =
    some ⟨.command ⟨30, 4⟩ (.next [⟨"I"⟩]), 4, 0, Graph.exit⟩)
  have closed : (Graph.build assigning).loopsClosedBy 4 = [⟨2, 4, "I"⟩] := by decide +kernel
  have toNext : (Graph.build assigning).StackStep (3, []) (4, []) :=
    Graph.stackStep_of_normal assigning (by decide +kernel) []
  have edge : (Graph.exit, .loopExit) ∈ (Graph.build assigning).successors 4 := by decide +kernel
  have toExit : (Graph.build assigning).StackStep (4, []) (Graph.exit, []) :=
    Graph.stackStep_of_mem (Graph.wellFormed_build _) edge nofun nofun []
  have numeric : (table assigning).isNumeric (Name.key ⟨"I"⟩) = true := by decide +kernel
  have value (memory : Memory ℝ) : (literal 255 "255").Denotes memory (.number 255) := by
    have large : Arithmetic.integer? (255 : Float) = some 255 := by decide +kernel
    simpa using denotes_literal large "255" memory
  have run : CountingRun assigning (table assigning) _ :=
    (countingRun_entered _ first (by decide +kernel) (by decide +kernel)).step
      (.assign inside rfl (value _) (takes_number numeric 255) toNext)
  have passed : bounds.Passed (255 + bounds.step) := by
    rw [passed_bounds_iff]
    norm_num [bounds]
  refine ⟨_, _, run.step (countingStep_leave closing rfl closed
    (active_entered [⟨20, [jumpAhead], 2⟩]) (memory_set_i _ _) passed (Nat.le_refl 1) toExit),
    List.mem_cons_self, rfl, fun n hn hle => ?_⟩
  have h : ((256 : Int) : ℝ) = n := by
    rw [← Value.number.inj hn]
    norm_num [bounds]
  obtain rfl := Int.cast_injective h
  exact absurd hle.2 (by decide)

/-- The difference is taken while `N` is still zero. -/
theorem exceeds_late : Exceeds late ⟨"X", -2, 0, .int8⟩ (.set (Name.key ⟨"X"⟩) (.number (-7))) := by
  refine ⟨by decide +kernel, ?_⟩
  have first := List.mem_of_getElem? (rfl : late.placed[0]? =
    some ⟨.command ⟨10, 4⟩ (.assign (.scalar ⟨"M"⟩) (literal 7 "7")), 2, 0, 3⟩)
  have second := List.mem_of_getElem? (rfl : late.placed[1]? =
    some ⟨.command ⟨20, 4⟩ (.assign (.scalar ⟨"X"⟩)
      (.binary .sub (.scalar ⟨"N"⟩) (.scalar ⟨"M"⟩))), 3, 0, 4⟩)
  have toFirst : (Graph.build late).StackStep (Graph.entry, []) (2, []) :=
    Graph.stackStep_of_normal late (by decide +kernel) []
  have toSecond : (Graph.build late).StackStep (2, []) (3, []) :=
    Graph.stackStep_of_normal late (by decide +kernel) []
  have toThird : (Graph.build late).StackStep (3, []) (4, []) :=
    Graph.stackStep_of_normal late (by decide +kernel) []
  have numericM : (table late).isNumeric (Name.key ⟨"M"⟩) = true := by decide +kernel
  have numericN : (table late).isNumeric (Name.key ⟨"N"⟩) = true := by decide +kernel
  have numericX : (table late).isNumeric (Name.key ⟨"X"⟩) = true := by decide +kernel
  have apart : Name.key ⟨"N"⟩ ≠ Name.key ⟨"M"⟩ := by decide +kernel
  have value : (literal 7 "7").Denotes (table late).clearedMemory (.number 7) := by
    have seven : Arithmetic.integer? (7 : Float) = some 7 := by decide +kernel
    simpa using denotes_literal seven "7" (table late).clearedMemory
  have run : CountingRun late (table late) _ :=
    (History.start.step (countingStep_entry _ toFirst)).step
      (.assign first rfl value (takes_number numericM 7) toSecond)
  -- `N` is zero and `M` is 7
  have difference : (Expr.binary .sub (.scalar ⟨"N"⟩) (.scalar ⟨"M"⟩)).Denotes
      ((table late).clearedData.store (.set (Name.key ⟨"M"⟩) (.number 7))).memory
      (.number (-7)) := by
    have hN : ((table late).clearedData.store (.set (Name.key ⟨"M"⟩) (.number 7))).memory
        (Name.key ⟨"N"⟩) = .number 0 :=
      (CountingData.memory_store_of_ne _ (.set (Name.key ⟨"M"⟩) (.number 7)) apart).trans
        (if_pos numericN)
    have hM : ((table late).clearedData.store (.set (Name.key ⟨"M"⟩) (.number 7))).memory
        (Name.key ⟨"M"⟩) = .number 7 :=
      CountingData.memory_store_self _ (.set (Name.key ⟨"M"⟩) (.number 7))
    refine ⟨.number 0, .number 7, ⟨hN.symm, decide_eq_true rfl⟩, ⟨hM.symm, decide_eq_true rfl⟩, ?_,
      decide_eq_true rfl⟩
    show some (Value.number ((0 : ℝ) - 7)) = some (.number (-7))
    rw [zero_sub]
  refine ⟨_, _, run.step (.assign second rfl difference (takes_number numericX _) toThird),
    List.mem_cons_self, by decide +kernel, fun n hn hle => ?_⟩
  have h : ((-7 : Int) : ℝ) = n := by
    rw [← Value.number.inj hn]
    norm_num
  obtain rfl := Int.cast_injective h
  exact absurd hle.1 (by decide)

end SampleCounter

open SampleCounter in
/-- The first `NEXT` of the loop stores 2, which is in the range that reaches to 11. -/
theorem exists_range_countedLoop :
    ∃ past d, CountingRun (program []) (table (program [])) (((3, []), d) :: past) ∧
      .count "I" 1 bounds ∈ d.events ∧ ⟨"I", 1, 11, .uint8⟩ ∈ ranges (program []) ∧
        ∃ n : Int, (StoreEvent.count "I" 1 bounds).value = .number (n : ℝ) ∧ 1 ≤ n ∧ n ≤ 11 := by
  have closing : ⟨.command ⟨30, 4⟩ (.next [⟨"I"⟩]), 3, 0, Graph.exit⟩ ∈ (program []).placed :=
    List.mem_cons_of_mem _ List.mem_cons_self
  have closed : (Graph.build (program [])).loopsClosedBy 3 = [⟨2, 3, "I"⟩] := by decide +kernel
  have target : (Graph.build (program [])).next 2 = 3 := by decide +kernel
  have edge : (3, .loopBack) ∈ (Graph.build (program [])).successors 3 := by decide +kernel
  have back : (Graph.build (program [])).StackStep (3, []) (3, []) :=
    Graph.stackStep_of_mem (Graph.wellFormed_build _) edge nofun nofun []
  have within : ¬ bounds.Passed (1 + bounds.step) := by
    rw [passed_bounds_iff]
    norm_num [bounds]
  have run := (countingRun_entered [] List.mem_cons_self (by decide +kernel)
    (by decide +kernel)).step (countingStep_again closing rfl closed
      (active_entered []) (memory_set_i _ _) within (target.symm ▸ back))
  rw [target] at run
  refine ⟨_, _, run, List.mem_cons_self, by decide +kernel, ?_⟩
  refine integerRanges_hold (program []) (table (program [])) 10 run (fun m _ => ?_) ?_
    ⟨"I", 1, 11, .uint8⟩ (by decide +kernel) _ List.mem_cons_self rfl
  · intro q hq _ c hc key stored hst _ e he read hread
    have placed : (program []).placed =
      [⟨opening, 2, 0, 3⟩, ⟨.command ⟨30, 4⟩ (.next [⟨"I"⟩]), 3, 0, Graph.exit⟩] := rfl
    rw [placed, List.mem_cons, List.mem_singleton] at hq
    rcases hq with rfl | rfl
    · obtain rfl := Option.some.inj hc
      obtain ⟨-, rfl⟩ := Prod.mk.inj (List.mem_singleton.1 hst)
      rcases List.mem_cons.1 he with rfl | he
      · cases List.mem_singleton.1 hread
      · obtain rfl := List.mem_singleton.1 he
        cases List.mem_singleton.1 hread
    · obtain rfl := Option.some.inj hc
      cases hst
  · intro key n loop hmem _
    rcases List.mem_cons.1 hmem with h | h
    · obtain ⟨-, rfl, rfl⟩ := StoreEvent.count.inj h
      norm_num [passed_bounds_iff]
    · cases List.mem_singleton.1 h

open SampleCounter in
/-- A counter that is set inside its loop, and a scalar that is read before it is stored. -/
theorem integerRanges_fail :
    Exceeds assigning ⟨"I", 1, 255, .uint8⟩ (.count "I" 255 bounds) ∧
      Exceeds late ⟨"X", -2, 0, .int8⟩ (.set (Name.key ⟨"X"⟩) (.number (-7))) :=
  ⟨exceeds_assigning, exceeds_late⟩

end LineBasic
