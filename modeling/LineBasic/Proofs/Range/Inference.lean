import Mathlib.Algebra.Order.BigOperators.Group.List
import Mathlib.Algebra.GroupWithZero.Nat
import Mathlib.Algebra.Order.Group.Nat
import LineBasic.Proofs.Range.Interval
import LineBasic.Range.Inference

/-!
# The rounds settle

`RangeStates.Settles` describes the rounds without a bound on their number. States only grow, from
"not assigned" over wider and wider intervals to "unknown". After a number of rounds a scalar that
still changes becomes unknown, and stays so. Hence the bound on the number of rounds is never
reached (`RangeStates.settles_settle`), and when the rounds have come to their end, one more changes
nothing (`RangeStates.Settles.settled`).
-/

namespace LineBasic

/-! ## The order of states -/

namespace RangeState

/-- The values in the one state are among those in the other. -/
protected def Le : RangeState → RangeState → Prop
  | unassigned, _ | _, unknown => True
  | bounded a, bounded b => b.lo ≤ a.lo ∧ a.hi ≤ b.hi
  | _, _ => False

instance : PartialOrder RangeState where
  le := RangeState.Le
  le_refl s := by
    cases s with
    | bounded i => exact ⟨Int.le_refl _, Int.le_refl _⟩
    | _ => trivial
  le_trans s t u hst htu := by
    cases s <;> cases t <;> cases u <;> first
      | trivial
      | exact False.elim hst
      | exact False.elim htu
      | exact ⟨htu.1.trans hst.1, hst.2.trans htu.2⟩
  le_antisymm s t hst hts := by
    cases s <;> cases t
    case bounded.bounded i j =>
      obtain ⟨iLo, iHi⟩ := i
      obtain ⟨jLo, jHi⟩ := j
      obtain rfl : iLo = jLo := Int.le_antisymm hts.1 hst.1
      obtain rfl : iHi = jHi := Int.le_antisymm hst.2 hts.2
      rfl
    all_goals first | rfl | exact False.elim hst | exact False.elim hts

theorem le_unknown (s : RangeState) : s ≤ unknown := by cases s <;> trivial

theorem eq_unknown_of_le {s : RangeState} (h : unknown ≤ s) : s = unknown :=
  le_antisymm s.le_unknown h

theorem le_join (s : RangeState) (values : Option Interval) : s ≤ s.join values := by
  cases s with
  | unassigned => trivial
  | unknown => cases values <;> trivial
  | bounded i =>
    cases values with
    | none => trivial
    | some j => exact ⟨Int.min_le_left .., Int.le_max_left ..⟩

theorem join_ne_unassigned (s : RangeState) (values : Option Interval) :
    s.join values ≠ unassigned := by
  cases s <;> cases values <;> nofun

/-- A state that absorbs an assignment has its interval inside its own. -/
theorem exists_isWithin_of_join_eq {i : Interval} {values : Option Interval}
    (h : (bounded i).join values = bounded i) :
    ∃ j, values = some j ∧ j.isWithin i = true := by
  cases values with
  | none => cases h
  | some j =>
    obtain ⟨hlo, hhi⟩ := Interval.mk.inj (bounded.inj h)
    refine ⟨j, rfl, ?_⟩
    rw [Interval.isWithin, Bool.and_eq_true, decide_eq_true_iff, decide_eq_true_iff]
    exact ⟨hlo ▸ Int.min_le_right .., hhi ▸ Int.le_max_right ..⟩

/-- A state that absorbs an assignment has its values. -/
theorem exists_of_join_eq {i : Interval} {values : Option Interval}
    (h : (bounded i).join values = bounded i) :
    ∃ j, values = some j ∧ ∀ n ∈ j, n ∈ i := by
  obtain ⟨j, hj, hwithin⟩ := exists_isWithin_of_join_eq h
  exact ⟨j, hj, fun _ => Interval.mem_of_isWithin hwithin⟩

variable {s : RangeState} {values : List (Option Interval)}

theorem le_foldl_join (s : RangeState) (values : List (Option Interval)) :
    s ≤ values.foldl join s := by
  induction values generalizing s with
  | nil => exact le_refl s
  | cons v rest ih => exact (s.le_join v).trans (ih _)

/-- If a state is the same after some assignments, it absorbs each of them. -/
theorem join_eq_of_foldl_eq (h : values.foldl join s = s) : ∀ v ∈ values, s.join v = s := by
  induction values with
  | nil => nofun
  | cons v rest ih =>
    have hfirst : s.join v = s :=
      le_antisymm ((le_foldl_join _ rest).trans h.le) (s.le_join v)
    rw [List.foldl_cons, hfirst] at h
    exact List.forall_mem_cons.2 ⟨hfirst, ih h⟩

end RangeState

/-! ## Rounds -/

namespace RangeStates

variable {stores : List (String × Stored)} {states old new : RangeStates} {name : String}

/-- The values that a scalar is assigned, in the order of the assignments. -/
def assigned (stores : List (String × Stored)) (value : Stored → Option Interval) (name : String) :
    List (Option Interval) :=
  (stores.filter fun st => st.1 == name).map fun st => value st.2

theorem getElem?_foldl_join (value : Stored → Option Interval) (states : RangeStates)
    (name : String) :
    (stores.foldl (fun next (name, stored) =>
        next.modify name fun state => state.join (value stored)) states)[name]? =
      (states[name]?).map fun s => (assigned stores value name).foldl RangeState.join s := by
  induction stores generalizing states with
  | nil => simp [assigned]
  | cons st rest ih =>
    obtain ⟨n, stored⟩ := st
    rw [List.foldl_cons, ih, Std.ExtTreeMap.getElem?_modify]
    by_cases h : n = name
    · subst h
      simp [assigned, Function.comp_def]
    · simp [assigned, h]

theorem getElem?_round (stores : List (String × Stored)) (states : RangeStates) (name : String) :
    (round stores states)[name]? = (states[name]?).map fun s =>
      (assigned stores (Stored.interval? states.stateOf) name).foldl RangeState.join s :=
  getElem?_foldl_join _ states name

theorem mem_changed_iff :
    name ∈ changed old new ↔ ∃ state, new[name]? = some state ∧ old[name]? ≠ some state := by
  rw [changed, Std.ExtTreeMap.mem_keys, Std.ExtTreeMap.mem_iff_isSome_getElem?,
    Std.ExtTreeMap.getElem?_filter', Option.isSome_iff_exists]
  simp only [Option.filter_eq_some_iff, bne_iff_ne]

theorem getElem?_giveUp (names : List String) (states : RangeStates) (name : String) :
    (giveUp names states)[name]? = if name ∈ names then some .unknown else states[name]? := by
  induction names generalizing states with
  | nil => simp [giveUp]
  | cons n rest ih =>
    rw [giveUp, List.foldl_cons, ← giveUp, ih, Std.ExtTreeMap.getElem?_insert]
    by_cases h : n = name
    · subst h
      simp
    · simp [h, Ne.symm h]

/-- The same scalars are in states that are not less. -/
structure Grows (old new : RangeStates) : Prop where
  mem_iff : ∀ name, name ∈ new ↔ name ∈ old
  le : ∀ name, old.stateOf name ≤ new.stateOf name

theorem Grows.trans {mid : RangeStates} (h : Grows old mid) (h' : Grows mid new) :
    Grows old new :=
  ⟨fun name => (h'.mem_iff name).trans (h.mem_iff name),
    fun name => (h.le name).trans (h'.le name)⟩

theorem grows_round (stores : List (String × Stored)) (states : RangeStates) :
    Grows states (round stores states) := by
  constructor
  · intro name
    rw [Std.ExtTreeMap.mem_iff_isSome_getElem?, Std.ExtTreeMap.mem_iff_isSome_getElem?,
      getElem?_round, Option.isSome_map]
  · intro name
    rw [stateOf, stateOf, getElem?_round]
    cases states[name]? with
    | none => exact le_refl _
    | some s => exact s.le_foldl_join _

theorem grows_giveUp {names : List String} (h : ∀ name ∈ names, name ∈ states) :
    Grows states (giveUp names states) := by
  constructor
  · intro name
    rw [Std.ExtTreeMap.mem_iff_isSome_getElem?, getElem?_giveUp]
    split
    next hname => simpa using h name hname
    next => rw [Std.ExtTreeMap.mem_iff_isSome_getElem?]
  · intro name
    rw [stateOf, stateOf, getElem?_giveUp]
    split
    · exact RangeState.le_unknown _
    · exact le_refl _

theorem mem_of_mem_changed (h : name ∈ changed old new) : name ∈ new := by
  obtain ⟨state, hstate, -⟩ := mem_changed_iff.1 h
  rw [Std.ExtTreeMap.mem_iff_isSome_getElem?, hstate]
  rfl

/-- States also grow when those that changed are given up. -/
theorem Grows.giveUp (h : Grows old new) : Grows old (giveUp (changed old new) new) :=
  h.trans (grows_giveUp fun _ => mem_of_mem_changed)

/-! ## The number of rounds -/

/-- How many of the names are not given up. -/
def pending (names : List String) (states : RangeStates) : Nat :=
  (names.map fun name => if states.stateOf name = .unknown then 0 else 1).sum

theorem pending_le_length (names : List String) (states : RangeStates) :
    pending names states ≤ names.length := by
  have h := List.sum_le_card_nsmul (names.map fun name =>
    if states.stateOf name = .unknown then 0 else 1) 1 (by
      intro x hx
      obtain ⟨name, -, rfl⟩ := List.mem_map.1 hx
      split <;> decide)
  simpa [pending] using h

theorem indicator_anti (h : Grows old new) (name : String) :
    (if new.stateOf name = .unknown then 0 else 1) ≤
      if old.stateOf name = .unknown then 0 else 1 := by
  by_cases hold : old.stateOf name = .unknown
  · rw [if_pos hold, if_pos (RangeState.eq_unknown_of_le (hold ▸ h.le name))]
  · rw [if_neg hold]
    split <;> decide

theorem pending_anti (names : List String) (h : Grows old new) :
    pending names new ≤ pending names old :=
  List.sum_le_sum fun name _ => indicator_anti h name

/-- A scalar that changed was not unknown. -/
theorem stateOf_ne_unknown_of_mem_changed (h : Grows old new) (hname : name ∈ changed old new) :
    old.stateOf name ≠ .unknown := by
  intro hold
  obtain ⟨state, hstate, hne⟩ := mem_changed_iff.1 hname
  have hmem : name ∈ old := (h.mem_iff name).1 (mem_of_mem_changed hname)
  obtain ⟨before, hbefore⟩ := Option.isSome_iff_exists.1
    (Std.ExtTreeMap.mem_iff_isSome_getElem?.1 hmem)
  have hnew : new.stateOf name = .unknown := RangeState.eq_unknown_of_le (hold ▸ h.le name)
  rw [stateOf, hbefore] at hold
  rw [stateOf, hstate] at hnew
  obtain rfl : before = .unknown := hold
  obtain rfl : state = .unknown := hnew
  exact hne hbefore

/-- When scalars that changed are given up, fewer are left. -/
theorem pending_giveUp_lt {names : List String} (hnames : ∀ name ∈ old, name ∈ names)
    (h : Grows old new) (hchanged : changed old new ≠ []) :
    pending names (giveUp (changed old new) new) < pending names old := by
  obtain ⟨name, hname⟩ := List.exists_mem_of_ne_nil _ hchanged
  have hmem : name ∈ names := hnames name ((h.mem_iff name).1 (mem_of_mem_changed hname))
  refine List.sum_lt_sum _ _ (fun name _ => indicator_anti h.giveUp name) ⟨name, hmem, ?_⟩
  have hgiven : (giveUp (changed old new) new).stateOf name = .unknown := by
    rw [stateOf, getElem?_giveUp, if_pos hname]
    rfl
  rw [if_pos hgiven, if_neg (stateOf_ne_unknown_of_mem_changed h hname)]
  decide

/--
The rounds begin with these states, after `rounds` of them since scalars were last given up, and end
with the final ones. Scalars that changed in a round are given up if it was the last of `limit`.
-/
inductive Settles (stores : List (String × Stored)) (limit : Nat) :
    Nat → RangeStates → RangeStates → Prop
  | unchanged {rounds : Nat} {states : RangeStates} : changed states (round stores states) = [] →
    Settles stores limit rounds states (round stores states)
  | givingUp {rounds : Nat} {states final : RangeStates} :
    changed states (round stores states) ≠ [] → limit ≤ rounds + 1 →
    Settles stores limit 0 (giveUp (changed states (round stores states)) (round stores states))
      final →
    Settles stores limit rounds states final
  | again {rounds : Nat} {states final : RangeStates} :
    changed states (round stores states) ≠ [] → rounds + 1 < limit →
    Settles stores limit (rounds + 1) (round stores states) final →
    Settles stores limit rounds states final

/-- With enough rounds left they come to their end. Either fewer scalars are left, or as many and
fewer rounds until some are given up. -/
theorem settles_settle (stores : List (String × Stored)) (limit : Nat) {names : List String}
    (n rounds : Nat) (states : RangeStates) (hnames : ∀ name ∈ states, name ∈ names)
    (hrounds : rounds ≤ limit)
    (hn : pending names states * (limit + 1) + (limit + 1 - rounds) ≤ n) :
    Settles stores limit rounds states (settle stores limit n rounds states).1 := by
  induction n generalizing rounds states with
  | zero => omega
  | succ n ih =>
    have hgrows := grows_round stores states
    rw [settle]
    split
    next hchanged => exact .unchanged hchanged
    next hne =>
      split
      next hlimit =>
        have hlt := pending_giveUp_lt hnames hgrows hne
        have hle := Nat.mul_le_mul_right (limit + 1) (Nat.succ_le_of_lt hlt)
        rw [Nat.succ_mul] at hle
        exact .givingUp hne hlimit
          (ih 0 _ (fun name hname => hnames name ((hgrows.giveUp.mem_iff name).1 hname))
            (Nat.zero_le _) (by omega))
      next hlimit =>
        have hle := Nat.mul_le_mul_right (limit + 1) (pending_anti names hgrows)
        exact .again hne (by omega)
          (ih (rounds + 1) _ (fun name hname => hnames name ((hgrows.mem_iff name).1 hname))
            (by omega) (by omega))

/-! ## When the rounds have ended -/

/-- One more round changes nothing. -/
def Settled (stores : List (String × Stored)) (states : RangeStates) : Prop :=
  round stores states = states

/-- States that a round does not change are settled. -/
theorem settled_of_changed (h : changed states (round stores states) = []) :
    Settled stores (round stores states) := by
  have hsame : round stores states = states := by
    refine Std.ExtTreeMap.ext_getElem? fun name => ?_
    cases hnext : (round stores states)[name]? with
    | none =>
      have hnot : name ∉ states := by
        rw [← (grows_round stores states).mem_iff, Std.ExtTreeMap.mem_iff_isSome_getElem?, hnext]
        exact Bool.false_ne_true
      exact (Std.ExtTreeMap.getElem?_eq_none hnot).symm
    | some state =>
      by_contra hne
      have hmem : name ∈ changed states (round stores states) :=
        mem_changed_iff.2 ⟨state, hnext, fun h => hne h.symm⟩
      rw [h] at hmem
      cases hmem
  rw [Settled, hsame, hsame]

namespace Settles

variable {limit rounds : Nat} {final : RangeStates}

/-- Until the end the states only grow. -/
theorem grows (h : Settles stores limit rounds states final) : Grows states final := by
  induction h with
  | unchanged => exact grows_round ..
  | givingUp _ _ _ ih => exact (grows_round ..).giveUp.trans ih
  | again _ _ _ ih => exact (grows_round ..).trans ih

theorem settled (h : Settles stores limit rounds states final) : Settled stores final := by
  induction h with
  | unchanged hchanged => exact settled_of_changed hchanged
  | givingUp _ _ _ ih | again _ _ _ ih => exact ih

end Settles

/-! ## The first states -/

/-- The state of a scalar before the first round. -/
def initial (t : SymbolTable) (name : String) : RangeState :=
  if (t.scalars[name]?).all fun info => info.type.isNumeric then .unassigned else .unknown

theorem getElem?_start (t : SymbolTable) (stores : List (String × Stored)) (name : String) :
    (start t stores)[name]? =
      if name ∈ stores.map Prod.fst then some (initial t name) else none := by
  have hfold : ∀ states : RangeStates, (stores.foldl (fun states (name, _) =>
      states.insert name (initial t name)) states)[name]? =
        if name ∈ stores.map Prod.fst then some (initial t name) else states[name]? := by
    induction stores with
    | nil => simp
    | cons st rest ih =>
      obtain ⟨n, stored⟩ := st
      intro states
      rw [List.foldl_cons, ih, Std.ExtTreeMap.getElem?_insert]
      by_cases h : n = name
      · subst h
        simp
      · simp [h, Ne.symm h, -List.mem_map]
  exact (hfold ∅).trans (by rw [Std.ExtTreeMap.getElem?_empty])

theorem mem_start_iff {t : SymbolTable} :
    name ∈ start t stores ↔ name ∈ stores.map Prod.fst := by
  rw [Std.ExtTreeMap.mem_iff_isSome_getElem?, getElem?_start]
  split <;> simp [*]

/-- The states in which the rounds end. -/
def final (t : SymbolTable) (stores : List (String × Stored)) (limit : Nat) : RangeStates :=
  (settle stores limit ((start t stores).roundBound limit) 0 (start t stores)).1

variable {t : SymbolTable} {limit : Nat}

/-- The rounds come to an end, whatever the limit. -/
theorem settles_final (t : SymbolTable) (stores : List (String × Stored)) (limit : Nat) :
    Settles stores limit 0 (start t stores) (final t stores limit) := by
  have hnames : ∀ name ∈ start t stores, name ∈ (start t stores).keys :=
    fun _ => Std.ExtTreeMap.mem_keys.2
  refine settles_settle stores limit _ 0 _ hnames (Nat.zero_le _) ?_
  have hle := pending_le_length (start t stores).keys (start t stores)
  rw [Std.ExtTreeMap.length_keys] at hle
  rw [roundBound]
  calc
    pending (start t stores).keys (start t stores) * (limit + 1) + (limit + 1 - 0) =
        (pending (start t stores).keys (start t stores) + 1) * (limit + 1) := (Nat.succ_mul ..).symm
    _ ≤ ((start t stores).size + 1) * (limit + 1) :=
        Nat.mul_le_mul_right _ (Nat.succ_le_succ hle)
    _ ≤ ((start t stores).size + 1) * (limit + 1) + 1 := Nat.le_succ _

theorem mem_final_iff : name ∈ final t stores limit ↔ name ∈ stores.map Prod.fst :=
  ((settles_final t stores limit).grows.mem_iff name).trans mem_start_iff

/-- The state of a scalar absorbs each of its assignments. -/
theorem join_eq_of_mem_stores (t : SymbolTable) (limit : Nat) {stored : Stored}
    (h : (name, stored) ∈ stores) :
    ((final t stores limit).stateOf name).join
        (stored.interval? (final t stores limit).stateOf) =
      (final t stores limit).stateOf name := by
  have hmem : name ∈ final t stores limit := mem_final_iff.2 (List.mem_map.2 ⟨_, h, rfl⟩)
  obtain ⟨s, hs⟩ := Option.isSome_iff_exists.1 (Std.ExtTreeMap.mem_iff_isSome_getElem?.1 hmem)
  have hround := getElem?_round stores (final t stores limit) name
  rw [(settles_final t stores limit).settled, hs, Option.map_some] at hround
  have hvalue : stored.interval? (final t stores limit).stateOf ∈
      assigned stores (Stored.interval? (final t stores limit).stateOf) name :=
    List.mem_map.2 ⟨(name, stored), List.mem_filter.2 ⟨h, beq_self_eq_true name⟩, rfl⟩
  have hjoin := RangeState.join_eq_of_foldl_eq (Option.some.inj hround).symm _ hvalue
  rw [stateOf, hs]
  exact hjoin

/-- A scalar that is assigned is not in the state of one that is not. -/
theorem stateOf_ne_unassigned {stored : Stored} (h : (name, stored) ∈ stores) :
    (final t stores limit).stateOf name ≠ .unassigned :=
  join_eq_of_mem_stores t limit h ▸ RangeState.join_ne_unassigned _ _

/-- Strings have no range. -/
theorem isNumeric_of_bounded {values : Interval}
    (h : (final t stores limit).stateOf name = .bounded values) :
    (t.scalars[name]?).all (fun info => info.type.isNumeric) = true := by
  by_contra hstring
  have hle := (settles_final t stores limit).grows.le name
  have hfinal : name ∈ final t stores limit := by
    rw [Std.ExtTreeMap.mem_iff_isSome_getElem?]
    by_contra hnone
    rw [Option.not_isSome_iff_eq_none] at hnone
    rw [stateOf, hnone] at h
    cases h
  have hmem : name ∈ stores.map Prod.fst := mem_final_iff.1 hfinal
  have hstart : (start t stores).stateOf name = .unknown := by
    rw [stateOf, getElem?_start, if_pos hmem, initial, if_neg hstring]
    rfl
  rw [hstart] at hle
  cases h.symm.trans (RangeState.eq_unknown_of_le hle)

end RangeStates

end LineBasic
