import LineBasic.Proofs.Loop.ConstantBounds
import LineBasic.Proofs.Number.ZeroSigns
import LineBasic.Proofs.Range.IntegerRuns

/-!
# Scalars that follow a counter

A loop lists a scalar that its body writes only once, as a linear function of the counter. The
equation holds from this assignment on, as long as nothing writes the counter or the scalar
(`InductionVariable.holds_of_history`). In the body nothing else writes the scalar, so that each
round that meets the assignment and leaves the counter alone comes to the `NEXT` with the equation
(`inductionVariables_follow`). The analysis does not look at what else writes the counter: a round
that does so behind the assignment comes to the `NEXT` without it (`inductionVariables_fail`).
-/

namespace LineBasic

/-! ## Linear functions -/

/-- The number of a literal with its sign changed. -/
theorem literal?_neg {x : Float} {c : ℝ} (h : LiteralValues.literal? x = some c) :
    LiteralValues.literal? (-x) = some (-c) := by
  have hneg := Number.parts_neg x
  dsimp only [LiteralValues.literal?] at h ⊢
  rw [show (-x).toModel.unpack = _ from hneg, Number.parts]
  split at h
  next s m e hm heq =>
    obtain rfl := Option.some.inj h
    rw [heq]
    have hsigned : Number.signed (-s) m = -Number.signed s m := by
      cases s with
      | positive => rfl
      | negative => exact (Int.neg_neg _).symm
    change some ((Number.signed (-s) m : ℝ) * 2 ^ e) = _
    rw [hsigned, Int.cast_neg, neg_mul]
  next s heq =>
    obtain rfl := Option.some.inj h
    rw [heq]
    exact congrArg some neg_zero.symm
  next => cases h

theorem literal?_zero : LiteralValues.literal? (0 : Float) = some (0 : ℝ) := by
  have zero : Arithmetic.integer? (0 : Float) = some 0 := rfl
  simpa using Arithmetic.literal?_of_integer? zero

theorem literal?_one : LiteralValues.literal? (1 : Float) = some (1 : ℝ) := by
  have one : Arithmetic.integer? (1 : Float) = some 1 := rfl
  simpa using Arithmetic.literal?_of_integer? one

namespace LoopContext

variable {memory : Memory ℝ} {counter : String} {e left right : Expr Float} {m c : Float}
  {v : Value ℝ}

/-- The value is this multiple of the counter with this offset. -/
def IsLinear (memory : Memory ℝ) (counter : String) (m c : Float) (v : Value ℝ) : Prop :=
  ∃ a b, LiteralValues.literal? m = some a ∧ LiteralValues.literal? c = some b ∧
    ∀ i, memory counter = .number i → v = .number (i * a + b)

theorem denotes_of_number? (h : e.number? = some c) (hv : e.Denotes memory v) :
    ∃ b, LiteralValues.literal? c = some b ∧ v = .number b := by
  cases e with
  | number x text =>
    obtain rfl := Option.some.inj h
    obtain ⟨b, hb, hv, -⟩ := hv
    exact ⟨b, hb, hv⟩
  | _ => cases h

/-- The factors of a product are a scalar and a literal. -/
theorem of_scaled? {name : String} (h : scaled? left right = some (name, c)) :
    (∃ n, left = .scalar n ∧ n.key = name ∧ right.number? = some c) ∨
      ∃ n, right = .scalar n ∧ n.key = name ∧ left.number? = some c := by
  rw [scaled?.eq_def] at h
  split at h
  next n =>
    obtain ⟨x, hx, hname⟩ := Option.map_eq_some_iff.1 h
    obtain ⟨rfl, rfl⟩ := Prod.mk.inj hname
    exact .inl ⟨n, rfl, rfl, hx⟩
  next n _ =>
    obtain ⟨x, hx, hname⟩ := Option.map_eq_some_iff.1 h
    obtain ⟨rfl, rfl⟩ := Prod.mk.inj hname
    exact .inr ⟨n, rfl, rfl, hx⟩
  next => cases h

theorem isLinear_mul (h : scaled? left right = some (counter, m))
    (hv : (Expr.binary .mul left right).Denotes memory v) :
    IsLinear memory counter m 0 v := by
  obtain ⟨x, y, hx, hy, hxy, -⟩ := hv
  rcases of_scaled? h with ⟨n, rfl, rfl, hm⟩ | ⟨n, rfl, rfl, hm⟩
  · obtain ⟨a, ha, rfl⟩ := denotes_of_number? hm hy
    refine ⟨a, 0, ha, literal?_zero, fun i hi => ?_⟩
    obtain rfl : x = .number i := hx.1.trans hi
    rw [add_zero]
    exact (Option.some.inj hxy).symm
  · obtain ⟨a, ha, rfl⟩ := denotes_of_number? hm hx
    refine ⟨a, 0, ha, literal?_zero, fun i hi => ?_⟩
    obtain rfl : y = .number i := hy.1.trans hi
    rw [add_zero, mul_comm]
    exact (Option.some.inj hxy).symm

theorem exists_scalar_of_isCounter
    (h : (match e with | .scalar name => name.key == counter | _ => false) = true) :
    ∃ n, e = .scalar n ∧ n.key = counter := by
  cases e with
  | scalar n => exact ⟨n, rfl, eq_of_beq h⟩
  | _ => cases h

/-- What an assignment stores is the linear function that is read off its expression. -/
theorem isLinear_of_linearIn? (h : linearIn? counter e = some (m, c))
    (hv : e.Denotes memory v) : IsLinear memory counter m c v := by
  rw [linearIn?.eq_def] at h
  dsimp only at h
  split at h
  next n =>
    obtain ⟨hn, h⟩ := Option.ite_none_right_eq_some.1 h
    obtain ⟨rfl, rfl⟩ := Prod.mk.inj (Option.some.inj h)
    refine ⟨1, 0, literal?_one, literal?_zero, fun i hi => ?_⟩
    rw [mul_one, add_zero, ← hi, ← hn]
    exact hv.1
  next left right =>
    obtain ⟨⟨name, a⟩, hscaled, h⟩ := Option.bind_eq_some_iff.1 h
    obtain ⟨hname, h⟩ := Option.ite_none_right_eq_some.1 h
    obtain ⟨rfl, rfl⟩ := Prod.mk.inj (Option.some.inj h)
    exact isLinear_mul (hname ▸ hscaled) hv
  next left right =>
    obtain ⟨x, y, hx, hy, hxy, -⟩ := hv
    split_ifs at h with hleft hright
    · obtain ⟨n, rfl, rfl⟩ := exists_scalar_of_isCounter hleft
      obtain ⟨b, hb, h⟩ := Option.map_eq_some_iff.1 h
      obtain ⟨rfl, rfl⟩ := Prod.mk.inj h
      obtain ⟨b, hb, rfl⟩ := denotes_of_number? hb hy
      refine ⟨1, b, literal?_one, hb, fun i hi => ?_⟩
      obtain rfl : x = .number i := hx.1.trans hi
      rw [mul_one]
      exact (Option.some.inj hxy).symm
    · obtain ⟨n, rfl, rfl⟩ := exists_scalar_of_isCounter hright
      obtain ⟨b, hb, h⟩ := Option.map_eq_some_iff.1 h
      obtain ⟨rfl, rfl⟩ := Prod.mk.inj h
      obtain ⟨b, hb, rfl⟩ := denotes_of_number? hb hx
      refine ⟨1, b, literal?_one, hb, fun i hi => ?_⟩
      obtain rfl : y = .number i := hy.1.trans hi
      rw [mul_one, add_comm]
      exact (Option.some.inj hxy).symm
  next left right =>
    obtain ⟨x, y, hx, hy, hxy, -⟩ := hv
    split_ifs at h with hleft
    obtain ⟨n, rfl, rfl⟩ := exists_scalar_of_isCounter hleft
    obtain ⟨b, hb, h⟩ := Option.map_eq_some_iff.1 h
    obtain ⟨rfl, rfl⟩ := Prod.mk.inj h
    obtain ⟨b, hb, rfl⟩ := denotes_of_number? hb hy
    refine ⟨1, -b, literal?_one, literal?_neg hb, fun i hi => ?_⟩
    obtain rfl : x = .number i := hx.1.trans hi
    rw [mul_one, ← sub_eq_add_neg]
    exact (Option.some.inj hxy).symm
  next => cases h

end LoopContext

/-- The equation of the variable holds. -/
def InductionVariable.Holds (v : InductionVariable) (counter : String) (memory : Memory ℝ) : Prop :=
  LoopContext.IsLinear memory counter v.multiplier v.offset (memory v.name)

/-! ## What is listed -/

/-- The assignment of a scalar that follows the counter of a loop. -/
structure LinearAssignment (p : Program) (t : SymbolTable) (l : ForLoop) (v : InductionVariable)
    (n : Node) : Prop where
  mem_nodes : n ∈ (Graph.build p).nodes
  inside : l.contains n.id = true
  assigned : ∃ target value, n.command? = some (.assign (.scalar target) value) ∧
    target.key = v.name ∧ LoopContext.linearIn? l.counter value = some (v.multiplier, v.offset)
  name_ne : v.name ≠ l.counter
  /-- Nothing else in the body writes the scalar. -/
  only : ∀ id, l.contains id = true → WritesAt ((Graph.build p).effects t) id v.name → id = n.id

section Listed

variable {p : Program} {t : SymbolTable} {ctx : LoopContext} {l : ForLoop} {v : InductionVariable}

/-- If the statements of the body write a scalar only once, one of them does. -/
theorem LoopContext.eq_of_mem_defs {name : String}
    (honce : definitionsOf name ((ctx.body l).map fun n => ctx.effectsAt n.id) = 1)
    {n n' : Node} (hn : n ∈ ctx.body l) (hn' : n' ∈ ctx.body l)
    (hname : name ∈ (ctx.effectsAt n.id).defs) (hname' : name ∈ (ctx.effectsAt n'.id).defs) :
    n = n' := by
  obtain ⟨i, hi⟩ := List.getElem?_of_mem hn
  obtain ⟨j, hj⟩ := List.getElem?_of_mem hn'
  have effectsOf {k : Nat} {m : Node} (hk : (ctx.body l)[k]? = some m) :
      ((ctx.body l).map fun n => ctx.effectsAt n.id)[k]? = some (ctx.effectsAt m.id) := by
    rw [List.getElem?_map, hk]
    rfl
  rcases Nat.lt_trichotomy i j with hlt | rfl | hgt
  · have := two_le_definitionsOf hlt (effectsOf hi) (effectsOf hj) hname hname'
    omega
  · exact Option.some.inj (hi.symm.trans hj)
  · have := two_le_definitionsOf hgt (effectsOf hj) (effectsOf hi) hname' hname
    omega

theorem LoopContext.exists_linearAssignment (hctx : ctx.graph = Graph.build p)
    (heffects : ctx.effects = (Graph.build p).effects t) (hv : v ∈ ctx.derived l) :
    v.base = some l.counter ∧ ∃ n, v.line = n.line ∧ LinearAssignment p t l v n := by
  obtain ⟨n, hn, hv⟩ := List.mem_filterMap.1 hv
  obtain ⟨hnode, hinside, -⟩ := mem_body_iff.1 hn
  split at hv
  next target value hc =>
    obtain ⟨⟨hne, honce⟩, hv⟩ := Option.ite_none_right_eq_some.1 hv
    obtain ⟨⟨m, c⟩, hlinear, rfl⟩ := Option.map_eq_some_iff.1 hv
    refine ⟨rfl, n, rfl, hctx ▸ hnode, hinside, ⟨target, value, hc, rfl, hlinear⟩, hne, ?_⟩
    rintro id hid ⟨fx, hfx, hname⟩
    have hfx' : ctx.effects[id]? = some fx := heffects ▸ hfx
    obtain ⟨n', hn', rfl, -⟩ :=
      exists_mem_body hctx heffects hid ⟨fx, hfx', List.mem_append_left _ hname⟩
    have hdefs : target.key ∈ (ctx.effectsAt n.id).defs := by
      have hassign :=
        (Graph.wellFormed_build p).getElem?_effects_of_command (hctx ▸ hnode) hc t
      rw [effectsAt, heffects, hassign]
      exact List.mem_singleton_self _
    have hdefs' : target.key ∈ (ctx.effectsAt n'.id).defs := by
      rwa [effectsAt, hfx']
    exact congrArg Node.id (eq_of_mem_defs honce hn' hn hdefs' hdefs)
  next => cases hv

end Listed

/-! ## Runs behind the assignment -/

section Runs

variable {p : Program} {t : SymbolTable} {l : ForLoop} {v : InductionVariable} {n : Node}
  {s s' : MachineState ℝ}

/-- The assignment gives the scalar the value of its equation. -/
theorem LinearAssignment.holds_of_assign (h : LinearAssignment p t l v n)
    (hst : Executes p t s s') (hs : s.control.1 = n.id) : v.Holds l.counter s'.memory := by
  obtain ⟨target, value, hc, hname, hlinear⟩ := h.assigned
  obtain ⟨q, hq, rfl⟩ : ∃ q ∈ p.placed, n = q.node p.edges := by
    have hnode := (Graph.wellFormed_build p).node?_id h.mem_nodes
    rcases Graph.eq_of_node?_build hnode with ⟨hs, -⟩ | ⟨q, hq, -, hqn⟩
    · rw [Node.command?, hs] at hc
      cases hc
    · exact ⟨q, hq, hqn⟩
  have hvalue := hst.assigns q hq hs.symm target value hc
  have hcounter : s'.memory l.counter = s.memory l.counter := by
    refine hst.keeps l.counter ?_
    rintro ⟨fx, hfx, hmem⟩
    have hassign := (Graph.wellFormed_build p).getElem?_effects_of_command h.mem_nodes hc t
    rw [hs, hassign] at hfx
    obtain rfl := Option.some.inj hfx
    exact h.name_ne (hname.symm.trans (List.mem_singleton.1 hmem).symm)
  obtain ⟨a, b, ha, hb, hlinear⟩ := LoopContext.isLinear_of_linearIn? hlinear hvalue
  refine ⟨a, b, ha, hb, fun i hi => ?_⟩
  rw [← hname]
  exact hlinear i (hcounter ▸ hi)

/-- Statements that write neither the scalar nor the counter keep the equation. -/
theorem InductionVariable.Holds.executes {counter : String} (h : v.Holds counter s.memory)
    (hst : Executes p t s s')
    (hname : ¬ WritesAt ((Graph.build p).effects t) s.control.1 v.name)
    (hcounter : ¬ WritesAt ((Graph.build p).effects t) s.control.1 counter) :
    v.Holds counter s'.memory := by
  unfold Holds LoopContext.IsLinear
  rw [hst.keeps v.name hname, hst.keeps counter hcounter]
  exact h

/-- The equation holds from the assignment on, until something else writes the scalar or the
counter. -/
theorem InductionVariable.holds_of_history (h : LinearAssignment p t l v n)
    {start d : MachineState ℝ} {past : List (MachineState ℝ)} (hd : d.control.1 = n.id) :
    ∀ {recent : List (MachineState ℝ)} {s : MachineState ℝ},
      History (Executes p t) start (s :: (recent ++ d :: past)) →
      (∀ r ∈ recent, l.contains r.control.1 = true ∨
        ¬ WritesAt ((Graph.build p).effects t) r.control.1 v.name) →
      (∀ r ∈ recent, ¬ WritesAt ((Graph.build p).effects t) r.control.1 l.counter) →
      v.Holds l.counter s.memory
  | [], _, hrun, _, _ => h.holds_of_assign hrun.of_cons_cons.2 hd
  | r :: recent, _, hrun, hname, hcounter => by
    obtain ⟨hpast, hst⟩ := hrun.of_cons_cons
    rw [List.forall_mem_cons] at hname hcounter
    by_cases hr : r.control.1 = n.id
    · exact h.holds_of_assign hst hr
    · refine (holds_of_history h hd hpast hname.2 hcounter.2).executes hst (fun hwrites => ?_)
        hcounter.1
      rcases hname.1 with hinside | hother
      · exact hr (h.only _ hinside hwrites)
      · exact hother hwrites

end Runs

/-! ## Rounds -/

/-- A step of a round with values. -/
structure RoundExecutes (p : Program) (t : SymbolTable) (l : ForLoop) (id : NodeId)
    (s s' : MachineState ℝ) : Prop where
  executes : Executes p t s s'
  round : RoundStep p l id s.control s'.control

/-- What is known of a scalar that a loop lists as a function of its counter. -/
structure FollowsCounter (p : Program) (t : SymbolTable) (l : ForLoop) (v : InductionVariable)
    (n : Node) : Prop extends LinearAssignment p t l v n where
  /-- The equation holds on every run from the assignment on, until something writes the counter or,
  outside the loop, the scalar. -/
  holds : ∀ start s recent d past,
    History (Executes p t) start (s :: (recent ++ d :: past)) → d.control.1 = n.id →
    (∀ r ∈ recent, l.contains r.control.1 = true ∨
      ¬ WritesAt ((Graph.build p).effects t) r.control.1 v.name) →
    (∀ r ∈ recent, ¬ WritesAt ((Graph.build p).effects t) r.control.1 l.counter) →
    v.Holds l.counter s.memory
  /-- The equation holds at the `NEXT` after every round that stays in the body, does not jump over
  the assignment and leaves the counter alone. -/
  round : (n.depth = 0 ∨ ∀ a ∈ p.arms, a.Holds n.id → a.Holds l.forNode) → ∀ start s past,
    History (RoundExecutes p t l n.id) start (s :: past) →
    start.control.1 = (Graph.build p).next l.forNode → s.control.1 = l.nextNode →
    (∀ r ∈ past, ¬ WritesAt ((Graph.build p).effects t) r.control.1 l.counter) →
    v.Holds l.counter s.memory

section Rounds

variable {p : Program} {t : SymbolTable} {l : ForLoop} {v : InductionVariable} {n : Node}

/-- What is executed in a round is in the body. -/
theorem contains_of_mem_round {id : NodeId} {start s : MachineState ℝ}
    {past : List (MachineState ℝ)}
    (h : History (RoundExecutes p t l id) start (s :: past)) :
    ∀ r ∈ past, l.contains r.control.1 = true := by
  induction past generalizing s with
  | nil => exact nofun
  | cons r past ih =>
    obtain ⟨hpast, hst⟩ := h.of_cons_cons
    exact List.forall_mem_cons.2 ⟨hst.round.inside, ih hpast⟩

theorem LinearAssignment.holds_of_round (h : LinearAssignment p t l v n)
    (hl : l ∈ (Graph.build p).forLoops)
    (harms : n.depth = 0 ∨ ∀ a ∈ p.arms, a.Holds n.id → a.Holds l.forNode)
    {start s : MachineState ℝ} {past : List (MachineState ℝ)}
    (hround : History (RoundExecutes p t l n.id) start (s :: past))
    (hstart : start.control.1 = (Graph.build p).next l.forNode) (hs : s.control.1 = l.nextNode)
    (hcounter : ∀ r ∈ past, ¬ WritesAt ((Graph.build p).effects t) r.control.1 l.counter) :
    v.Holds l.counter s.memory := by
  have hsame : ∀ a ∈ p.arms, a.Holds n.id → a.Holds l.forNode := fun a ha hid =>
    harms.elim (fun hzero => absurd hid (Graph.not_holds_of_depth_eq_zero h.mem_nodes hzero ha))
      fun harms => harms a ha hid
  have hcontrol : History (RoundStep p l n.id) ((Graph.build p).next l.forNode, start.control.2)
      ((l.nextNode, s.control.2) :: past.map MachineState.control) := by
    rw [← hstart, ← hs]
    exact hround.map RoundExecutes.round
  obtain ⟨c, hc, hid⟩ := exists_mem_round hl h.inside hsame hcontrol
  -- the assignment is no `NEXT`
  have hnext : n.id ≠ l.nextNode := by
    intro heq
    obtain ⟨q, hq, hqid, command, hcommand, counters, rfl, -⟩ :=
      Program.exists_next_of_mem_forLoops hl
    obtain ⟨target, value, hassign, -⟩ := h.assigned
    have hnode := (Graph.wellFormed_build p).node?_id h.mem_nodes
    rw [heq, ← hqid, Graph.node?_build_of_mem_placed hq] at hnode
    obtain rfl := Option.some.inj hnode
    cases hassign.symm.trans hcommand
  rcases List.mem_cons.1 hc with rfl | hc
  · exact absurd hid.symm hnext
  · obtain ⟨d, hd, rfl⟩ := List.mem_map.1 hc
    obtain ⟨recent, older, rfl⟩ := List.mem_iff_append.1 hd
    have hinside := contains_of_mem_round hround
    have hrun : History (Executes p t) start (s :: (recent ++ d :: older)) := by
      simpa using hround.map (f := id) RoundExecutes.executes
    refine InductionVariable.holds_of_history h hid hrun (fun r hr => .inl ?_) fun r hr => ?_
    · exact hinside r (List.mem_append_left _ hr)
    · exact hcounter r (List.mem_append_left _ hr)

end Rounds

/--
Every scalar that a loop lists as a function of its counter is assigned this function of the counter
by a statement of the body, and nothing else in the body writes it. The equation holds from there on
until the counter is written, and so at the `NEXT` after every round that meets the assignment and
leaves the counter alone.
-/
theorem inductionVariables_follow (p : Program) (t : SymbolTable) :
    ∀ info ∈ analyzeLoops (Graph.build p) ((Graph.build p).effects t),
      ∀ v ∈ info.inductionVariables, ∀ base, v.base = some base →
      ∃ l ∈ (Graph.build p).forLoops, ∃ n,
        info.startLine = (Graph.build p).lineOf l.forNode ∧
        info.endLine = (Graph.build p).lineOf l.nextNode ∧ info.counter = l.counter ∧
        base = l.counter ∧ v.line = n.line ∧ FollowsCounter p t l v n := by
  intro info hinfo v hv base hbase
  rw [analyzeLoops, LoopSummary.sort, List.mem_mergeSort] at hinfo
  obtain ⟨l, hl, start, stop, step, rfl⟩ := LoopContext.exists_loop_of_mem_summaries hinfo
  rcases List.mem_cons.1 hv with rfl | hv
  · cases hbase
  · obtain ⟨hcounter, n, hline, h⟩ := LoopContext.exists_linearAssignment rfl rfl hv
    have hsame : base = l.counter := Option.some.inj (hbase.symm.trans hcounter)
    exact ⟨l, hl, n, rfl, rfl, rfl, hsame, hline, h,
      fun _ _ _ _ _ hrun hd => InductionVariable.holds_of_history h hd hrun,
      fun harms _ _ _ => h.holds_of_round hl harms⟩

/-! ## A loop that doubles its counter -/

namespace SampleFollower

open SampleCounter

/-- The statement `J = I * 2`. -/
def double : Statement :=
  .command ⟨20, 4⟩ (.assign (.scalar ⟨"J"⟩) (.binary .mul (.scalar ⟨"I"⟩) (literal 2 "2")))

/-- The statement `I = I + 1`. -/
def skip : Statement :=
  .command ⟨25, 4⟩ (.assign (.scalar ⟨"I"⟩) (.binary .add (.scalar ⟨"I"⟩) (literal 1 "1")))

def doubling : ProgramLine := ⟨20, [double], 2⟩

def skipping : ProgramLine := ⟨25, [skip], 3⟩

/-- The summaries of the loop `FOR I = 1 TO 10` with a body. -/
def summaries (body : List ProgramLine) : List LoopSummary :=
  analyzeLoops (Graph.build (program body))
    ((Graph.build (program body)).effects (table (program body)))

/-- `J` is listed as twice the counter. -/
theorem exists_doubled (body : List ProgramLine)
    (h : ((summaries body).any fun info => info.inductionVariables.any fun v =>
      v.name == "J" && v.base == some "I" && decide (v.multiplier = 2) && decide (v.offset = 0)) =
        true) :
    ∃ info ∈ summaries body, ∃ v ∈ info.inductionVariables,
      v.name = "J" ∧ v.base = some "I" ∧ v.multiplier = 2 ∧ v.offset = 0 := by
  obtain ⟨info, hinfo, h⟩ := List.any_eq_true.1 h
  obtain ⟨v, hv, h⟩ := List.any_eq_true.1 h
  simp only [Bool.and_eq_true, beq_iff_eq, decide_eq_true_eq] at h
  exact ⟨info, hinfo, v, hv, h.1.1.1, h.1.1.2, h.1.2, h.2⟩

theorem key_j : Name.key ⟨"J"⟩ = "J" := by decide +kernel

theorem literal?_two : LiteralValues.literal? (2 : Float) = some (2 : ℝ) := by
  have two : Arithmetic.integer? (2 : Float) = some 2 := rfl
  simpa using Arithmetic.literal?_of_integer? two

/-- A binary expression of the counter and a literal. -/
theorem denotes_binary {memory : Memory ℝ} {op : BinaryOp} {x : Float} {i a b : ℝ}
    (hi : memory "I" = .number i) (ha : LiteralValues.literal? x = some a)
    (hb : op.applyNumbers? i a = some (.number b)) (text : String) :
    (Expr.binary op (.scalar ⟨"I"⟩) (literal x text)).Denotes memory (.number b) := by
  rw [← key_i] at hi
  exact ⟨.number i, .number a, ⟨hi.symm, decide_eq_true rfl⟩, ⟨a, ha, rfl, decide_eq_true rfl⟩, hb,
    decide_eq_true rfl⟩

theorem applyNumbers?_mul {a b c : ℝ} (h : a * b = c) :
    BinaryOp.mul.applyNumbers? a b = some (.number c) := h ▸ rfl

/-- The data of a run of the loop after its first assignment. -/
def doubled (body : List ProgramLine) : CountingData :=
  (entered body).store (.set (Name.key ⟨"J"⟩) (.number (1 + 1)))

theorem memory_doubled_i (body : List ProgramLine) : (doubled body).memory "I" = .number 1 := by
  have apart : "I" ≠ Name.key ⟨"J"⟩ := by rw [key_j]; decide
  calc (doubled body).memory "I"
      _ = (entered body).memory "I" :=
        CountingData.memory_store_of_ne _ (.set (Name.key ⟨"J"⟩) _) apart
      _ = .number 1 := memory_set_i _ _

theorem memory_doubled_j (body : List ProgramLine) :
    (doubled body).memory "J" = .number (1 + 1) := by
  rw [← key_j]
  exact CountingData.memory_store_self _ (.set (Name.key ⟨"J"⟩) _)

/-- The start of the body, where all scalars are 3. -/
def atThree : MachineState ℝ := ⟨(3, []), fun _ => .number 3⟩

/-- After the assignment to `J` there. -/
def afterThree : MachineState ℝ :=
  ⟨(4, []), Function.update atThree.memory (Name.key ⟨"J"⟩) (.number 6)⟩

end SampleFollower

open SampleCounter SampleFollower in
/-- The round of the loop that only doubles its counter comes to the `NEXT` with the equation. -/
theorem exists_inductionVariable_doubledCounter :
    ∃ info ∈ summaries [doubling], ∃ v ∈ info.inductionVariables,
      v.base = some "I" ∧ v.name = "J" ∧ ∃ start s : MachineState ℝ,
        start.memory "I" = .number 3 ∧ s.control = (4, []) ∧
        Executes (program [doubling]) (table (program [doubling])) start s ∧
        v.Holds "I" s.memory := by
  obtain ⟨info, hinfo, v, hv, hname, hbase, -, -⟩ := exists_doubled [doubling] (by decide +kernel)
  obtain ⟨l, hl, n, -, -, -, -, -, follows⟩ := inductionVariables_follow (program [doubling])
    (table (program [doubling])) info hinfo v hv "I" hbase
  have hloop : l = ⟨2, 4, "I"⟩ := by
    have loops : (Graph.build (program [doubling])).forLoops = [⟨2, 4, "I"⟩] := by decide +kernel
    exact List.mem_singleton.1 (loops ▸ hl)
  subst hloop
  have node : 3 = n.id := follows.only 3 (by decide) (hname ▸ by decide +kernel)
  have top : n.depth = 0 := by
    have depth : ((Graph.build (program [doubling])).node? 3).map Node.depth = some 0 := by
      decide +kernel
    rw [node, (Graph.wellFormed_build _).node?_id follows.mem_nodes] at depth
    exact Option.some.inj depth
  have inside : ⟨double, 3, 0, 4⟩ ∈ (program [doubling]).placed :=
    List.mem_of_getElem? (rfl : (program [doubling]).placed[1]? = _)
  have toNext : (Graph.build (program [doubling])).StackStep (3, []) (4, []) :=
    Graph.stackStep_of_normal (program [doubling]) (by decide +kernel) []
  have executes : Executes (program [doubling]) (table (program [doubling])) atThree afterThree :=
    executes_assign inside rfl toNext
      (denotes_binary rfl literal?_two (applyNumbers?_mul (by norm_num)) "2")
  have round : History (RoundExecutes (program [doubling]) (table (program [doubling]))
      ⟨2, 4, "I"⟩ n.id) atThree [afterThree, atThree] :=
    History.start.step
      ⟨executes, toNext, by decide, fun hlt => absurd node.symm.le (Nat.not_le.2 hlt)⟩
  refine ⟨info, hinfo, v, hv, hbase, hname, _, _, rfl, rfl, executes,
    follows.round (.inl top) _ _ _ round (by decide +kernel) rfl fun r hr => ?_⟩
  obtain rfl := List.mem_singleton.1 hr
  decide +kernel

open SampleCounter SampleFollower in
/-- The counter is changed behind the assignment, so that the round comes to the `NEXT` with 2 for
both, where twice the counter is 4. -/
theorem inductionVariables_fail :
    ∃ info ∈ summaries [doubling, skipping], ∃ v ∈ info.inductionVariables,
      v.base = some "I" ∧ v.name = "J" ∧
      (Graph.build (program [doubling, skipping])).forLoops = [⟨2, 5, "I"⟩] ∧
      (Graph.build (program [doubling, skipping])).next 2 = 3 ∧
      ∃ d d' d'' past,
        CountingRun (program [doubling, skipping]) (table (program [doubling, skipping]))
          (((5, []), d'') :: ((4, []), d') :: ((3, []), d) :: past) ∧
        ¬ v.Holds "I" d''.memory := by
  obtain ⟨info, hinfo, v, hv, hname, hbase, hm, hc⟩ :=
    exists_doubled [doubling, skipping] (by decide +kernel)
  refine ⟨info, hinfo, v, hv, hbase, hname, by decide +kernel, by decide +kernel, ?_⟩
  have first : ⟨opening, 2, 0, 3⟩ ∈ (program [doubling, skipping]).placed :=
    List.mem_of_getElem? (rfl : (program [doubling, skipping]).placed[0]? = _)
  have second : ⟨double, 3, 0, 4⟩ ∈ (program [doubling, skipping]).placed :=
    List.mem_of_getElem? (rfl : (program [doubling, skipping]).placed[1]? = _)
  have third : ⟨skip, 4, 0, 5⟩ ∈ (program [doubling, skipping]).placed :=
    List.mem_of_getElem? (rfl : (program [doubling, skipping]).placed[2]? = _)
  have toSkip : (Graph.build (program [doubling, skipping])).StackStep (3, []) (4, []) :=
    Graph.stackStep_of_normal _ (by decide +kernel) []
  have toNext : (Graph.build (program [doubling, skipping])).StackStep (4, []) (5, []) :=
    Graph.stackStep_of_normal _ (by decide +kernel) []
  have numericI : (table (program [doubling, skipping])).isNumeric (Name.key ⟨"I"⟩) = true := by
    decide +kernel
  have numericJ : (table (program [doubling, skipping])).isNumeric (Name.key ⟨"J"⟩) = true := by
    decide +kernel
  have product : (Expr.binary .mul (.scalar ⟨"I"⟩) (literal 2 "2")).Denotes
      (entered [doubling, skipping]).memory (.number (1 + 1)) :=
    denotes_binary (memory_set_i _ _) literal?_two (applyNumbers?_mul (by norm_num)) "2"
  have sum : (Expr.binary .add (.scalar ⟨"I"⟩) (literal 1 "1")).Denotes
      (doubled [doubling, skipping]).memory (.number (1 + 1)) :=
    denotes_binary (memory_doubled_i _) literal?_one rfl "1"
  have run := ((countingRun_entered [doubling, skipping] first (by decide +kernel)
    (by decide +kernel)).step (.assign second rfl product (takes_number numericJ _) toSkip)).step
      (.assign third rfl sum (takes_number numericI _) toNext)
  refine ⟨_, _, _, _, run, ?_⟩
  rintro ⟨a, b, ha, hb, hlinear⟩
  rw [hm, literal?_two] at ha
  rw [hc, literal?_zero] at hb
  obtain rfl := Option.some.inj ha
  obtain rfl := Option.some.inj hb
  have apart : "J" ≠ Name.key ⟨"I"⟩ := by rw [key_i]; decide
  have twice := hlinear (1 + 1) (memory_set_i _ _)
  rw [hname, CountingData.memory_store_of_ne _ (.set (Name.key ⟨"I"⟩) _) apart] at twice
  have equal := Value.number.inj ((memory_doubled_j _).symm.trans twice)
  norm_num at equal

end LineBasic
