import LineBasic.Proofs.Flow.ReachingDefinitions
import LineBasic.Symbol.Build

/-!
# When a substitution is safe

The verdict on an assignment compares the definitions of the scalars that its expression reads, at
the assignment and at the single read. This excludes that a node in between defines such a scalar
for the first time, and nothing else: a substitution is safe if and only if on every run the read
gets the value of this assignment, no array of the expression has been written, and no definition of
a scalar that can come before the assignment was repeated after it. The verdict looks at none of the
three.
-/

namespace LineBasic

/-- The arrays of an expression. -/
def Expr.arrayNames (e : Expr Float) : List String :=
  e.subterms.filterMap fun sub => match sub with
    | .element name _ => some name.key
    | _ => none

variable {effects : Array Effects} {g : Graph} {d r m id : NodeId} {name : String}
  {value : Expr Float}

/-- Some path under call strings leads to `d`, and `m` is the last on it to write the scalar. -/
def Graph.Reaches (g : Graph) (effects : Array Effects) (name : String) (m d : NodeId) : Prop :=
  ∃ calls past, g.ContextPath ((d, calls) :: past) ∧
    LastWriter effects (past.map Prod.fst) name m

/--
Whenever a run is at `r`, it has been at `d`, and all nodes since then have the property.
-/
def Graph.SinceLast (g : Graph) (d r : NodeId) (P : NodeId → Prop) : Prop :=
  ∀ stack past, g.StackRun ((r, stack) :: past) →
    ∃ since before, past.map Prod.fst = since ++ d :: before ∧ ∀ m ∈ since, P m

/-- The node writes neither the scalar nor anything that the expression reads. -/
def Undisturbed (effects : Array Effects) (name : String) (value : Expr Float)
    (m : NodeId) : Prop :=
  ¬ WritesAt effects m name ∧ (∀ x ∈ Substitution.operands value, ¬ WritesAt effects m x) ∧
    ∀ a ∈ value.arrayNames, ¬ WritesArrayAt effects m a

/--
The node does nothing that the verdict on the assignment at `d` does not see: it writes neither the
scalar nor an array of the expression, and it repeats no definition of a scalar of the expression
that can come before the assignment.
-/
def NothingUnseen (g : Graph) (effects : Array Effects) (d : NodeId) (name : String)
    (value : Expr Float) (m : NodeId) : Prop :=
  ¬ WritesAt effects m name ∧
    (∀ x ∈ Substitution.operands value, WritesAt effects m x → ¬ g.Reaches effects x m d) ∧
    ∀ a ∈ value.arrayNames, ¬ WritesArrayAt effects m a

/-! ## What the verdict says -/

namespace Substitution

theorem mem_definersOf_iff {fact : DefinitionSet} :
    m ∈ definersOf name fact ↔ (name, m) ∈ fact := by
  simp [definersOf]

theorem verdict_fst_eq_true {changed : Option String} {useLines : List Nat}
    (h : (verdict value changed useLines).1 = true) :
    changed = none ∧ ∃ line, useLines = [line] := by
  unfold verdict at h
  split at h
  · cases h
  · split at h
    · cases h
    · split at h
      · cases h
      next line =>
        split at h
        · cases h
        · exact ⟨rfl, line, rfl⟩
      · cases h

/-- The operands of the expression have the same definitions at both nodes. -/
theorem eq_of_changedOperand?_eq_none {atDefinition atUse : DefinitionSet}
    (h : changedOperand? name value atDefinition atUse = none) {x : String}
    (hx : x ∈ operands value) :
    x ≠ name ∧ ∀ m, (x, m) ∈ atDefinition ↔ (x, m) ∈ atUse := by
  have hx := List.find?_eq_none.1 h x hx
  simp only [Bool.or_eq_true, beq_iff_eq, bne_iff_ne, not_or, not_not] at hx
  refine ⟨hx.1, fun m => ?_⟩
  rw [← mem_definersOf_iff, hx.2, mem_definersOf_iff]

theorem mem_readers {solution : Solution DefinitionSet}
    (h : r ∈ readers g effects solution d name) :
    ∃ atUse, solution.before[r]? = some atUse ∧ (name, d) ∈ atUse ∧ ReadsAt effects r name := by
  obtain ⟨n, -, h⟩ := List.mem_flatMap.1 h
  split at h
  next atUse fx hatUse hfx =>
    obtain ⟨u, hu, rfl⟩ := List.mem_map.1 h
    simp only [List.mem_filter, Bool.and_eq_true, beq_iff_eq, Std.ExtTreeSet.contains_iff_mem] at hu
    exact ⟨atUse, hatUse, hu.2.2, fx, hfx, u, hu.1, hu.2.1⟩
  next => cases h

/-- What is known of an assignment that can be substituted. -/
structure Accepted (g : Graph) (effects : Array Effects) (solution : Solution DefinitionSet)
    (s : Substitution) (d r : NodeId) (name : String) (value : Expr Float) : Prop where
  name_eq : s.name = name
  readers_eq : readers g effects solution d name = [r]
  useLines_eq : s.useLines = [g.lineOf r]
  facts : ∃ atDefinition atUse, solution.before[d]? = some atDefinition ∧
    solution.before[r]? = some atUse ∧ changedOperand? name value atDefinition atUse = none

theorem accepted_of_ofNode? {solution : Solution DefinitionSet} {n : Node} {s : Substitution}
    (hs : ofNode? g effects solution n = some s) (hcan : s.canSubstitute = true) :
    ∃ name value r, n.command? = some (.assign (.scalar name) value) ∧
      Accepted g effects solution s n.id r name.key value := by
  obtain ⟨name, value, atDefinition, hcommand, -, hatDefinition, rfl⟩ := ofNode?_eq_some_iff.1 hs
  obtain ⟨hchanged, line, hline⟩ := verdict_fst_eq_true hcan
  obtain ⟨r, hr, rfl⟩ := List.map_eq_singleton_iff.1 hline
  obtain ⟨atUse, hatUse, -⟩ := mem_readers (hr ▸ List.mem_singleton_self r)
  rw [hr, changedBefore?, hatUse, Option.bind_some] at hchanged
  exact ⟨name, value, r, hcommand, rfl, hr, hline, atDefinition, atUse, hatDefinition, hatUse,
    hchanged⟩

/-- What the verdict sees of a run: a definition after the assignment also comes before it. -/
theorem Accepted.reaches {s : Substitution} (hg : g.WellFormed)
    (h : Accepted g effects ((reachingDefinitions effects).solve g) s d r name value) {x : String}
    (hx : x ∈ operands value) {stack : List NodeId} {past : List Graph.StackState}
    (hrun : g.StackRun ((r, stack) :: past))
    (hlast : LastWriter effects (past.map Prod.fst) x m) : g.Reaches effects x m d := by
  obtain ⟨atDefinition, atUse, hatDefinition, hatUse, hsame⟩ := h.facts
  have hmem : (x, m) ∈ atUse := mem_before_of_stackRun hg hatUse hrun hlast
  exact (mem_before_iff hg hatDefinition).1 (((eq_of_changedOperand?_eq_none hsame hx).2 m).2 hmem)

/-- The substitution is safe if and only if no node does what the verdict does not see. -/
theorem Accepted.undisturbed_iff {s : Substitution} (hg : g.WellFormed)
    (h : Accepted g effects ((reachingDefinitions effects).solve g) s d r name value) :
    g.SinceLast d r (Undisturbed effects name value) ↔
      g.SinceLast d r (NothingUnseen g effects d name value) := by
  constructor <;> intro hsafe stack past hrun
  · obtain ⟨since, before, hpast, hsince⟩ := hsafe stack past hrun
    refine ⟨since, before, hpast, fun m hm => ?_⟩
    obtain ⟨hname, hscalars, harrays⟩ := hsince m hm
    exact ⟨hname, fun x hx hwrites => absurd hwrites (hscalars x hx), harrays⟩
  · obtain ⟨since, before, hpast, hsince⟩ := hsafe stack past hrun
    refine ⟨since, before, hpast, fun m hm => ?_⟩
    obtain ⟨hname, -, harrays⟩ := hsince m hm
    refine ⟨hname, fun x hx hwrites => ?_, harrays⟩
    -- Of the nodes that write the operand, the last one reaches the read and so the assignment.
    obtain ⟨last, hlast, hlastWriter⟩ := exists_lastWriter hm hwrites
    have hreaches : g.Reaches effects x last d :=
      h.reaches hg hx hrun (hpast ▸ hlastWriter.append (d :: before))
    exact (hsince last hlast).2.1 x hx hlastWriter.writesAt hreaches

end Substitution

/-! ## Values -/

/-- The values of scalars and arrays. -/
structure Store (ν α : Type) where
  scalars : String → ν
  arrays : String → α

section Values

variable {ν α : Type}

/-- A way to evaluate the expression, which looks at what it reads only. -/
def EvaluatesFrom (value : Expr Float) (eval : Store ν α → ν) : Prop :=
  ∀ σ τ : Store ν α, (∀ x ∈ Substitution.operands value, σ.scalars x = τ.scalars x) →
    (∀ a ∈ value.arrayNames, σ.arrays a = τ.arrays a) → eval σ = eval τ

/--
A step of a run with values: what a node does not write stays the same, and the node `d` assigns the
value of the expression to the scalar.
-/
structure StoreStep (g : Graph) (effects : Array Effects) (d : NodeId) (name : String)
    (eval : Store ν α → ν) (s t : Graph.StackState × Store ν α) : Prop where
  step : g.StackStep s.1 t.1
  scalars : ∀ x, ¬ WritesAt effects s.1.1 x → t.2.scalars x = s.2.scalars x
  arrays : ∀ a, ¬ WritesArrayAt effects s.1.1 a → t.2.arrays a = s.2.arrays a
  assigns : s.1.1 = d → t.2.scalars name = eval s.2

variable {eval : Store ν α → ν} {start : Graph.StackState × Store ν α}

/-- While nothing disturbs it, the scalar holds the value of the expression. -/
theorem eval_eq_of_undisturbed (heval : EvaluatesFrom value eval)
    (hd : (∀ x ∈ Substitution.operands value, ¬ WritesAt effects d x) ∧
      ∀ a ∈ value.arrayNames, ¬ WritesArrayAt effects d a)
    {past : List (Graph.StackState × Store ν α)} {s : Graph.StackState × Store ν α}
    (hrun : History (StoreStep g effects d name eval) start (s :: past))
    {since before : List NodeId} (hpast : past.map (fun t => t.1.1) = since ++ d :: before)
    (hsince : ∀ m ∈ since, Undisturbed effects name value m) :
    eval s.2 = s.2.scalars name := by
  induction since generalizing s past with
  | nil =>
    obtain ⟨t, past, rfl, htd, -⟩ := List.map_eq_cons_iff.1 hpast
    obtain ⟨-, hst⟩ := hrun.of_cons_cons
    rw [hst.assigns htd]
    exact heval _ _ (fun x hx => hst.scalars x (htd ▸ hd.1 x hx))
      fun a ha => hst.arrays a (htd ▸ hd.2 a ha)
  | cons m since ih =>
    obtain ⟨t, past, rfl, htm, hpast⟩ := List.map_eq_cons_iff.1 hpast
    obtain ⟨hrun, hst⟩ := hrun.of_cons_cons
    obtain ⟨⟨hname, hscalars, harrays⟩, hsince⟩ := List.forall_mem_cons.1 hsince
    rw [hst.scalars name (htm ▸ hname), ← ih hrun hpast hsince]
    exact heval _ _ (fun x hx => hst.scalars x (htm ▸ hscalars x hx))
      fun a ha => hst.arrays a (htm ▸ harrays a ha)

end Values

theorem writes_of_assign (hg : g.WellFormed) {n : Node} (hn : n ∈ g.nodes) {v : Name}
    (hc : n.command? = some (.assign (.scalar v) value)) (t : SymbolTable) :
    (∀ x, WritesAt (g.effects t) n.id x → x = v.key) ∧
      ∀ a, ¬ WritesArrayAt (g.effects t) n.id a := by
  have hfx := hg.getElem?_effects_of_command hn hc t
  constructor
  · rintro x ⟨fx, hfx', hx⟩
    obtain rfl := Option.some.inj (hfx.symm.trans hfx')
    exact List.mem_singleton.1 hx
  · rintro a ⟨fx, hfx', ha⟩
    obtain rfl := Option.some.inj (hfx.symm.trans hfx')
    cases ha

/--
An assignment that can be substituted has a single reader. The substitution is safe if and only if
no node does what the verdict does not see, and then the expression has the value of the scalar
whenever a run is at the reader.
-/
theorem canSubstitute_safe_iff (p : Program) (t : SymbolTable) :
    let g := Graph.build p
    let effects := g.effects t
    let solution := (reachingDefinitions effects).solve g
    ∀ n ∈ g.nodes, ∀ s, Substitution.ofNode? g effects solution n = some s →
      s.canSubstitute = true →
      ∃ v value r, n.command? = some (.assign (.scalar v) value) ∧ s.name = v.key ∧
        Substitution.readers g effects solution n.id v.key = [r] ∧ s.useLines = [g.lineOf r] ∧
        (g.SinceLast n.id r (Undisturbed effects v.key value) ↔
          g.SinceLast n.id r (NothingUnseen g effects n.id v.key value)) ∧
        (g.SinceLast n.id r (Undisturbed effects v.key value) →
          ∀ (ν α : Type) (eval : Store ν α → ν), EvaluatesFrom value eval →
            ∀ σ₀ stack σ past,
              History (StoreStep g effects n.id v.key eval) ((Graph.entry, []), σ₀)
                (((r, stack), σ) :: past) →
              eval σ = σ.scalars v.key) := by
  intro g effects solution n hn s hs hcan
  have hg : g.WellFormed := Graph.wellFormed_build p
  obtain ⟨v, value, r, hc, haccepted⟩ := Substitution.accepted_of_ofNode? hs hcan
  refine ⟨v, value, r, hc, haccepted.name_eq, haccepted.readers_eq, haccepted.useLines_eq,
    haccepted.undisturbed_iff hg, fun hsafe ν α eval heval σ₀ stack σ past hrun => ?_⟩
  obtain ⟨atDefinition, atUse, -, -, hsame⟩ := haccepted.facts
  obtain ⟨hscalars, harrays⟩ := writes_of_assign hg hn hc t
  obtain ⟨since, before, hpast, hsince⟩ :=
    hsafe stack (past.map Prod.fst) (hrun.map (f := Prod.fst) StoreStep.step)
  refine eval_eq_of_undisturbed heval ⟨fun x hx hwrites => ?_, fun a _ => harrays a⟩ hrun
    (List.map_map.symm.trans hpast) hsince
  exact (Substitution.eq_of_changedOperand?_eq_none hsame hx).1 (hscalars x hwrites)

/-! ## A safe and an unsafe substitution -/

namespace SampleProgram

/-- The expression `A(B) + B`. -/
def sum : Expr Float := .binary .add (.element ⟨"A"⟩ [.scalar ⟨"B"⟩]) (.scalar ⟨"B"⟩)

/-- `INPUT B`, then `T = A(B) + B`, then what stands between, and then `PRINT T`. -/
def program (between : List Command) : Program :=
  let commands : List Command :=
    [.input none none [.scalar ⟨"B"⟩], .assign (.scalar ⟨"T"⟩) sum] ++ between ++
      [.print none [.expr (.scalar ⟨"T"⟩)]]
  ⟨commands.zipIdx.map fun (c, i) =>
    ⟨10 * (i + 1), [.command ⟨10 * (i + 1), 4⟩ c], i + 1⟩⟩

/-- The assignment `A(B) = B`. -/
def store : Command := .assign (.element ⟨"A"⟩ [.scalar ⟨"B"⟩]) (.scalar ⟨"B"⟩)

def graph (between : List Command) : Graph := .build (program between)

def table (between : List Command) : SymbolTable := (SymbolTable.build (program between)).table

def solution (between : List Command) : Solution DefinitionSet :=
  (reachingDefinitions ((graph between).effects (table between))).solve (graph between)

/-- The analysis says of the assignment that it can be substituted. -/
theorem exists_canSubstitute (between : List Command)
    (hc : ((graph between).node? 3).bind Node.command? = some (.assign (.scalar ⟨"T"⟩) sum))
    (hverdict : ((graph between).node? 3).any (fun n => (Substitution.ofNode? (graph between)
      ((graph between).effects (table between)) (solution between) n).any
        Substitution.canSubstitute) = true) :
    ∃ n ∈ (graph between).nodes, n.id = 3 ∧ n.command? = some (.assign (.scalar ⟨"T"⟩) sum) ∧
      ∃ s, Substitution.ofNode? (graph between) ((graph between).effects (table between))
        (solution between) n = some s ∧ s.canSubstitute = true := by
  obtain ⟨n, hn, hc⟩ := Option.bind_eq_some_iff.1 hc
  rw [hn, Option.any_some] at hverdict
  exact ⟨n, Array.mem_of_getElem? hn, (Graph.wellFormed_build _).id_eq hn, hc,
    (Option.any_eq_true ..).1 hverdict⟩

/-- The only step to the node after the assignment is from there. -/
theorem fst_eq_of_stackStep {s t : Graph.StackState} (ht : t.1 = 4)
    (hstack : ∀ site ∈ s.2, ∃ target, (target, .call) ∈ (graph []).successors site)
    (hst : (graph []).StackStep s t) : s.1 = 3 := by
  have edges : ∀ id < (graph []).size, ∀ e ∈ (graph []).successors id,
      e.2 ≠ .call ∧ (e.1 = 4 → id = 3) := by decide +kernel
  have edge {id : NodeId} {e : NodeId × EdgeKind} (he : e ∈ (graph []).successors id) :
      e.2 ≠ .call ∧ (e.1 = 4 → id = 3) := by
    refine edges id ?_ e he
    by_contra hid
    rw [Graph.successors, Graph.node?, Array.getElem?_eq_none (Nat.le_of_not_lt hid)] at he
    cases he
  cases hst with
  | call h => exact absurd rfl (edge h).1
  | giveBack =>
    obtain ⟨target, h⟩ := hstack _ List.mem_cons_self
    exact absurd rfl (edge h).1
  | giveUp _ h => exact (edge h).2 ht
  | along _ _ h => exact (edge h).2 ht

end SampleProgram

open SampleProgram in
/-- With nothing between the assignment and the read, the substitution is safe. -/
theorem canSubstitute_safe_adjacent :
    ∃ n ∈ (graph []).nodes, ∃ s,
      Substitution.ofNode? (graph []) ((graph []).effects (table [])) (solution []) n = some s ∧
        s.canSubstitute = true ∧ ∃ v value r, n.command? = some (.assign (.scalar v) value) ∧
          (graph []).SinceLast n.id r
            (Undisturbed ((graph []).effects (table [])) v.key value) := by
  have hreaders : Substitution.readers (graph []) ((graph []).effects (table [])) (solution []) 3
      (Name.key ⟨"T"⟩) = [4] := by decide +kernel
  obtain ⟨n, hn, hid, hc, s, hs, hcan⟩ :=
    exists_canSubstitute [] rfl (by decide +kernel)
  obtain ⟨v, value, r, hc', -, hr, -, hiff, -⟩ :=
    canSubstitute_safe_iff (program []) (table []) n hn s hs hcan
  cases hc.symm.trans hc'
  rw [hid] at hr
  cases hreaders.symm.trans hr
  refine ⟨n, hn, s, hs, hcan, _, _, 4, hc, hiff.2 fun stack past hrun => ?_⟩
  cases hrun with
  | @step t _ past hpast hst =>
    have ht : t.1 = 3 := fst_eq_of_stackStep rfl (Graph.StackRun.call_of_mem hpast) hst
    exact ⟨[], past.map Prod.fst, by rw [List.map_cons, ht, hid]; rfl, List.forall_mem_nil _⟩

open SampleProgram in
/-- The verdict does not see that the array of the expression is written before the read. -/
theorem canSubstitute_unsafe :
    ∃ n ∈ (graph [store]).nodes, ∃ s,
      Substitution.ofNode? (graph [store]) ((graph [store]).effects (table [store]))
          (solution [store]) n = some s ∧
        s.canSubstitute = true ∧ ∃ v value r, n.command? = some (.assign (.scalar v) value) ∧
          Substitution.readers (graph [store]) ((graph [store]).effects (table [store]))
            (solution [store]) n.id v.key = [r] ∧
          ¬ (graph [store]).SinceLast n.id r
            (Undisturbed ((graph [store]).effects (table [store])) v.key value) := by
  have hreaders : Substitution.readers (graph [store]) ((graph [store]).effects (table [store]))
      (solution [store]) 3 (Name.key ⟨"T"⟩) = [5] := by decide +kernel
  obtain ⟨n, hn, hid, hc, s, hs, hcan⟩ :=
    exists_canSubstitute [store] rfl (by decide +kernel)
  refine ⟨n, hn, s, hs, hcan, _, _, 5, hc, hid ▸ hreaders, fun hsafe => ?_⟩
  have step {id target : NodeId} (h : (target, .normal) ∈ (graph [store]).successors id) :
      (graph [store]).StackStep (id, []) (target, []) :=
    Graph.stackStep_of_normal (program [store]) h []
  have run : (graph [store]).StackRun [(5, []), (4, []), (3, []), (2, []), (Graph.entry, [])] :=
    (((History.start.step (step (by decide +kernel))).step (step (by decide +kernel))).step
      (step (by decide +kernel))).step (step (by decide +kernel))
  have writes : (((graph [store]).effects (table [store]))[4]?).any
      (fun fx => fx.arrayDefs.contains "A") = true := by decide +kernel
  obtain ⟨fx, hfx, hA⟩ := (Option.any_eq_true ..).1 writes
  obtain ⟨_ | ⟨m, since⟩, before, hpast, hsince⟩ := hsafe [] _ run
  · cases (List.cons.inj hpast).1.trans hid
  · obtain ⟨rfl, -⟩ := List.cons.inj hpast
    exact (hsince 4 List.mem_cons_self).2.2 "A" (by decide +kernel)
      ⟨fx, hfx, List.contains_iff_mem.1 hA⟩

end LineBasic
