import Mathlib.Data.List.Find
import LineBasic.Proofs.Flow.SeparatedPaths
import LineBasic.Proofs.Graph.SeparatedNodes

/-!
# Substitutions and separate `NEXT` statements

The records of assignments are compared with those of the program with separate `NEXT` statements.
What is read of an assignment is read there, too (`Program.carries_headOf`), so a record is extended
by its counterpart (`Program.exists_extends_headOf`). If no inner loop of a list can be skipped, the
same definitions reach a node and the first of those that stand for it (`Program.before_headOf`),
and the records are followed field by field (`Program.ofDefinitions_headOf`).

Both restrictions of the result are needed. The edge of a `FOR` whose loop is skipped leaves the
`NEXT` for all counters of its list, and a `NEXT` writes all of them on every way out, that of an
inner loop back to its body included.
-/

namespace LineBasic

/-! ## Definitions in the graph of the separated program -/

/-- For a node that writes the scalar, both say that its value comes to the other node. -/
theorem Graph.carries_iff_reaches {g : Graph} {effects : Array Effects} {name : String}
    {d r : NodeId} (hd : WritesAt effects d name) :
    g.Carries effects name d r ↔ g.Reaches effects name d r := by
  simp only [Graph.Carries, Graph.Reaches, lastWriter_iff_holdsSince hd]

namespace Substitution

theorem definersOf_eq_iff {name : String} {x y : DefinitionSet} :
    definersOf name x = definersOf name y ↔ ∀ m, (name, m) ∈ x ↔ (name, m) ∈ y := by
  constructor
  · intro h m
    rw [← mem_definersOf_iff, h, mem_definersOf_iff]
  · intro h
    have hfilter : (x.filter fun d => d.1 == name) = y.filter fun d => d.1 == name := by
      refine Std.ExtTreeSet.ext_mem fun (other, m) => ?_
      rw [Std.ExtTreeSet.mem_filter, Std.ExtTreeSet.mem_filter]
      simp only [Std.ExtTreeSet.get_eq, beq_iff_eq]
      constructor
      · rintro ⟨hm, rfl⟩
        exact ⟨(h m).1 hm, rfl⟩
      · rintro ⟨hm, rfl⟩
        exact ⟨(h m).2 hm, rfl⟩
    have hlist := congrArg Std.ExtTreeSet.toList hfilter
    rw [Std.ExtTreeSet.toList_filter, Std.ExtTreeSet.toList_filter] at hlist
    exact congrArg (List.map Prod.snd) hlist

theorem exists_node_of_mem_readers {g : Graph} {effects : Array Effects}
    {solution : Solution DefinitionSet} {d r : NodeId} {name : String}
    (h : r ∈ readers g effects solution d name) : ∃ n ∈ g.nodes, n.id = r := by
  obtain ⟨n, hn, h⟩ := List.mem_flatMap.1 h
  refine ⟨n, Array.mem_toList_iff.1 hn, ?_⟩
  split at h
  next =>
    obtain ⟨-, -, rfl⟩ := List.mem_map.1 h
    rfl
  next => cases h

theorem ofNode?_eq_none {g : Graph} {effects : Array Effects} {solution : Solution DefinitionSet}
    {n : Node} (h : ∀ v value, n.command? ≠ some (.assign (.scalar v) value)) :
    ofNode? g effects solution n = none := by
  rw [ofNode?]
  split
  next v value hc => exact absurd hc (h v value)
  next => rfl

theorem ofNode?_next {g : Graph} {effects : Array Effects} {solution : Solution DefinitionSet}
    {n : Node} {counters : List Name} (hc : n.command? = some (.next counters)) :
    ofNode? g effects solution n = none :=
  ofNode?_eq_none fun v value hassign => by rw [hc] at hassign; cases hassign

/-- The first record is one of the same assignment, with at least the uses of the second one. -/
structure Extends (s' s : Substitution) : Prop where
  line_eq : s'.line = s.line
  name_eq : s'.name = s.name
  expression_eq : s'.expression = s.expression
  useLines : s.useLines.Sublist s'.useLines
  isDeadStore : s'.isDeadStore = true → s.isDeadStore = true

/-- The record says nothing about whether the expression can be substituted. -/
def withoutVerdict (s : Substitution) : Substitution :=
  { s with canSubstitute := false, reason := "" }

end Substitution

namespace Program

variable {p : Program} {name : String}

/-- The solved reaching definitions of a program. -/
def definitions (p : Program) (t : SymbolTable) : Solution DefinitionSet :=
  (reachingDefinitions ((Graph.build p).effects t)).solve (Graph.build p)

/-- The fact of the separated program holds the same definitions, under their new numbers. -/
def SameDefinitions (p : Program) (name : String) (fact fact' : DefinitionSet) : Prop :=
  ∀ d', (name, d') ∈ fact' ↔ ∃ d, d' = p.headOf d ∧ (name, d) ∈ fact

theorem isSome_before_definitions_iff (p : Program) (t : SymbolTable) {id : NodeId} :
    ((p.definitions t).before[id]?).isSome ↔ (Graph.build p).HasPath id :=
  (bounded_reachingDefinitions _).isSome_before_iff (lawful_reachingDefinitions _)
    (Graph.wellFormed_build p)

/-- A node and the first of those that stand for it are both reached or none is, and the same
definitions reach them. -/
theorem before_headOf (h : (Graph.build p).issues = [])
    (hloops : (Graph.build p).InnerLoopsIterate) (t : SymbolTable) (id : NodeId) :
    ((p.definitions t).before[id]? = none ∧
        (p.separateNexts.definitions t).before[p.headOf id]? = none) ∨
      ∃ fact fact', (p.definitions t).before[id]? = some fact ∧
        (p.separateNexts.definitions t).before[p.headOf id]? = some fact' ∧
        ∀ name ∉ p.laterCounters, p.SameDefinitions name fact fact' := by
  have hexpansion := expansion_separateNexts h hloops
  have hsame : ((p.separateNexts.definitions t).before[p.headOf id]?).isSome ↔
      ((p.definitions t).before[id]?).isSome := by
    rw [isSome_before_definitions_iff, isSome_before_definitions_iff]
    exact hexpansion.hasPath_head_iff
  rcases hfact : (p.definitions t).before[id]? with _ | fact
  · rw [hfact] at hsame
    exact .inl ⟨rfl, Option.not_isSome_iff_eq_none.1 (hsame.not.2 nofun)⟩
  · rw [hfact] at hsame
    obtain ⟨fact', hfact'⟩ := Option.isSome_iff_exists.1 (hsame.2 rfl)
    refine .inr ⟨fact, fact', rfl, hfact', fun name hname d' => ?_⟩
    rw [mem_before_iff (Graph.wellFormed_build _) hfact']
    simp only [mem_before_iff (Graph.wellFormed_build _) hfact]
    exact hexpansion.reaches_head_iff (writes_separateNexts h hname t)

theorem SameDefinitions.mem_headOf_iff {fact fact' : DefinitionSet} {d : NodeId}
    (h : p.SameDefinitions name fact fact') : (name, p.headOf d) ∈ fact' ↔ (name, d) ∈ fact := by
  rw [h]
  constructor
  · rintro ⟨e, heq, he⟩
    rwa [p.strictMono_headOf.injective heq]
  · exact fun hd => ⟨d, rfl, hd⟩

theorem SameDefinitions.definersOf_eq_iff {x x' y y' : DefinitionSet}
    (hx : p.SameDefinitions name x x') (hy : p.SameDefinitions name y y') :
    Substitution.definersOf name x' = Substitution.definersOf name y' ↔
      Substitution.definersOf name x = Substitution.definersOf name y := by
  rw [Substitution.definersOf_eq_iff, Substitution.definersOf_eq_iff]
  constructor
  · intro h m
    rw [← hx.mem_headOf_iff, h, hy.mem_headOf_iff]
  · intro h m'
    rw [hx, hy]
    simp only [h]

/-- An operand may differ at the read in both programs or in none. -/
theorem changedOperand?_headOf {value : Expr Float} {x x' y y' : DefinitionSet}
    (h : ∀ operand ∈ Substitution.operands value,
      p.SameDefinitions operand x x' ∧ p.SameDefinitions operand y y') :
    Substitution.changedOperand? name value x' y' =
      Substitution.changedOperand? name value x y := by
  refine List.find?_congr fun operand hoperand => ?_
  obtain ⟨hx, hy⟩ := h operand hoperand
  congr 1
  rw [Bool.eq_iff_iff, bne_iff_ne, bne_iff_ne]
  exact (hx.definersOf_eq_iff hy).not

/-! ## Reads of an assignment -/

theorem lineOf_headOf {n : Node} (hn : n ∈ (Graph.build p).nodes) :
    (Graph.build p.separateNexts).lineOf (p.headOf n.id) = (Graph.build p).lineOf n.id := by
  obtain ⟨n', hn', h⟩ := exists_isHeadOf hn
  rw [← h.id_eq, Graph.lineOf, Graph.lineOf, (Graph.wellFormed_build _).node?_id hn',
    (Graph.wellFormed_build _).node?_id hn]
  exact h.line_eq

theorem map_lineOf_headOf {nodes : List NodeId}
    (h : ∀ r ∈ nodes, ∃ n ∈ (Graph.build p).nodes, n.id = r) :
    (nodes.map p.headOf).map (Graph.build p.separateNexts).lineOf =
      nodes.map (Graph.build p).lineOf := by
  rw [List.map_map]
  refine List.map_congr_left fun r hr => ?_
  obtain ⟨n, hn, rfl⟩ := h r hr
  exact lineOf_headOf hn

section Reads

variable (h : (Graph.build p).issues = []) (t : SymbolTable)

section OneWay

include h

/-- What is read of an assignment, is read with separate `NEXT` statements, too. -/
theorem carries_headOf (hname : name ∉ p.laterCounters) {d r : NodeId}
    (hd : WritesAt ((Graph.build p).effects t) d name)
    (hcarries : (Graph.build p).Carries ((Graph.build p).effects t) name d r) :
    (Graph.build p.separateNexts).Carries ((Graph.build p.separateNexts).effects t) name
      (p.headOf d) (p.headOf r) := by
  have hwrites := writes_separateNexts h hname t
  rw [Graph.carries_iff_reaches (hwrites.head.2 hd)]
  exact (embeds_separateNexts h).reaches_head hwrites ((Graph.carries_iff_reaches hd).1 hcarries)

theorem sublist_readers_headOf (hname : name ∉ p.laterCounters) {d : NodeId}
    (hd : WritesAt ((Graph.build p).effects t) d name) :
    ((Substitution.readers (Graph.build p) ((Graph.build p).effects t) (p.definitions t) d
        name).map p.headOf).Sublist
      (Substitution.readers (Graph.build p.separateNexts)
        ((Graph.build p.separateNexts).effects t) (p.separateNexts.definitions t) (p.headOf d)
        name) := by
  have hd' : WritesAt ((Graph.build p.separateNexts).effects t) (p.headOf d) name :=
    (writes_separateNexts h hname t).head.2 hd
  rw [definitions, definitions, Substitution.readers_eq (Graph.wellFormed_build _) hd',
    Substitution.readers_eq (Graph.wellFormed_build _) hd, List.map_flatMap]
  refine sublist_flatMap_nodes_separateNexts fun n _ n' hn' => ?_
  rw [hn'.id_eq, readsOf_headOf h hname t]
  by_cases hcarries : (Graph.build p).Carries ((Graph.build p).effects t) name d n.id
  · rw [if_pos (carries_headOf h t hname hd hcarries), if_pos hcarries, List.map_replicate]
  · rw [if_neg hcarries]
    exact List.nil_sublist _

/-- The record of an assignment has a counterpart that extends it. -/
theorem exists_extends_headOf {n n' : Node} (hn : n ∈ (Graph.build p).nodes)
    (hhead : p.IsHeadOf n' n) {s : Substitution}
    (hs : Substitution.ofNode? (Graph.build p) ((Graph.build p).effects t) (p.definitions t) n =
      some s) (hname : s.name ∉ p.laterCounters) :
    ∃ s', Substitution.ofNode? (Graph.build p.separateNexts)
        ((Graph.build p.separateNexts).effects t) (p.separateNexts.definitions t) n' = some s' ∧
      s'.Extends s := by
  obtain ⟨v, value, fact, hc, hconsidered, hfact, rfl⟩ := Substitution.ofNode?_eq_some_iff.1 hs
  have hname : v.key ∉ p.laterCounters := hname
  have hreached : ((p.separateNexts.definitions t).before[n'.id]?).isSome := by
    rw [isSome_before_definitions_iff, hhead.id_eq]
    refine (embeds_separateNexts h).hasPath_head ((isSome_before_definitions_iff p t).1 ?_)
    rw [hfact, Option.isSome_some]
  obtain ⟨fact', hfact'⟩ := Option.isSome_iff_exists.1 hreached
  have hwrites := writesAt_of_assign (Graph.wellFormed_build p) hn hc t
  have hreaders := sublist_readers_headOf h t hname hwrites
  rw [← hhead.id_eq] at hreaders
  refine ⟨_, Substitution.ofNode?_eq_some_iff.2
    ⟨v, value, fact', hhead.assign_iff.2 hc, hconsidered, hfact', rfl⟩,
    hhead.line_eq, rfl, rfl, ?_, fun hdead => ?_⟩
  · have hlines := hreaders.map (Graph.build p.separateNexts).lineOf
    rwa [map_lineOf_headOf fun r => Substitution.exists_node_of_mem_readers] at hlines
  · rw [Substitution.ofDefinitions, Bool.and_eq_true, List.isEmpty_iff] at hdead ⊢
    rw [hdead.1, List.sublist_nil, List.map_eq_nil_iff] at hreaders
    exact ⟨hreaders, hdead.2⟩

end OneWay

variable (hloops : (Graph.build p).InnerLoopsIterate)
include h hloops

theorem carries_headOf_iff (hname : name ∉ p.laterCounters) {d r : NodeId}
    (hd : WritesAt ((Graph.build p).effects t) d name) :
    (Graph.build p.separateNexts).Carries ((Graph.build p.separateNexts).effects t) name
        (p.headOf d) (p.headOf r) ↔
      (Graph.build p).Carries ((Graph.build p).effects t) name d r := by
  have hwrites := writes_separateNexts h hname t
  refine ⟨fun hcarries => ?_, carries_headOf h t hname hd⟩
  rw [Graph.carries_iff_reaches (hwrites.head.2 hd)] at hcarries
  obtain ⟨e, heq, hreach⟩ :=
    ((expansion_separateNexts h hloops).reaches_head_iff hwrites).1 hcarries
  rw [Graph.carries_iff_reaches hd]
  rwa [p.strictMono_headOf.injective heq]

theorem readers_headOf (hname : name ∉ p.laterCounters) {d : NodeId}
    (hd : WritesAt ((Graph.build p).effects t) d name) :
    Substitution.readers (Graph.build p.separateNexts) ((Graph.build p.separateNexts).effects t)
        (p.separateNexts.definitions t) (p.headOf d) name =
      (Substitution.readers (Graph.build p) ((Graph.build p).effects t) (p.definitions t) d
        name).map p.headOf := by
  have hd' : WritesAt ((Graph.build p.separateNexts).effects t) (p.headOf d) name :=
    (writes_separateNexts h hname t).head.2 hd
  rw [definitions, definitions, Substitution.readers_eq (Graph.wellFormed_build _) hd',
    Substitution.readers_eq (Graph.wellFormed_build _) hd, List.map_flatMap]
  refine flatMap_nodes_separateNexts (fun n _ n' hn' => ?_) fun id n' hinner _ => ?_
  · rw [hn'.id_eq, readsOf_headOf h hname t]
    have hiff := carries_headOf_iff (r := n.id) h t hloops hname hd
    by_cases hcarries : (Graph.build p).Carries ((Graph.build p).effects t) name d n.id
    · rw [if_pos (hiff.2 hcarries), if_pos hcarries, List.map_replicate]
    · rw [if_neg (mt hiff.1 hcarries), if_neg hcarries, List.map_nil]
  · rw [readsOf_innerNode h hname t hinner, List.length_nil, List.replicate_zero, ite_self]

/-- The single read of an assignment has the same changed operand. -/
theorem changedBefore?_headOf {value : Expr Float} {fact fact' : DefinitionSet}
    (hoperands : ∀ x ∈ Substitution.operands value, x ∉ p.laterCounters)
    (hfact : ∀ x ∈ Substitution.operands value, p.SameDefinitions x fact fact')
    (readers : List NodeId) :
    Substitution.changedBefore? (p.separateNexts.definitions t) name value fact'
        (readers.map p.headOf) =
      Substitution.changedBefore? (p.definitions t) name value fact readers := by
  match readers with
  | [] => simp only [List.map_nil, Substitution.changedBefore?]
  | [r] =>
    rw [List.map_singleton, Substitution.changedBefore?, Substitution.changedBefore?]
    rcases before_headOf h hloops t r with ⟨hat, hat'⟩ | ⟨atUse, atUse', hat, hat', hsame⟩
    · rw [hat, hat']
      rfl
    · rw [hat, hat']
      exact changedOperand?_headOf fun x hx => ⟨hfact x hx, hsame x (hoperands x hx)⟩
  | _ :: _ :: _ => simp only [List.map_cons, Substitution.changedBefore?]

/-- The record of an assignment, and that of the same assignment in the separated program. -/
theorem ofDefinitions_headOf {n n' : Node} (hn : n ∈ (Graph.build p).nodes)
    (hhead : p.IsHeadOf n' n) {v : Name} {value : Expr Float}
    (hc : n.command? = some (.assign (.scalar v) value)) (hv : v.key ∉ p.laterCounters)
    {fact fact' : DefinitionSet} (hsame : ∀ x ∉ p.laterCounters, p.SameDefinitions x fact fact') :
    let s := Substitution.ofDefinitions (Graph.build p) ((Graph.build p).effects t)
      (p.definitions t) n v value fact
    let s' := Substitution.ofDefinitions (Graph.build p.separateNexts)
      ((Graph.build p.separateNexts).effects t) (p.separateNexts.definitions t) n' v value fact'
    s'.withoutVerdict = s.withoutVerdict ∧
      ((∀ x ∈ Substitution.operands value, x ∉ p.laterCounters) → s' = s) := by
  have hwrites := writesAt_of_assign (Graph.wellFormed_build p) hn hc t
  have hreaders := readers_headOf h t hloops hv hwrites
  have hlines : ((Substitution.readers (Graph.build p) ((Graph.build p).effects t)
      (p.definitions t) n.id v.key).map p.headOf).map (Graph.build p.separateNexts).lineOf =
      (Substitution.readers (Graph.build p) ((Graph.build p).effects t) (p.definitions t) n.id
        v.key).map (Graph.build p).lineOf :=
    map_lineOf_headOf fun r => Substitution.exists_node_of_mem_readers
  dsimp only
  rw [Substitution.ofDefinitions, Substitution.ofDefinitions, hhead.id_eq, hhead.line_eq, hreaders,
    hlines, List.isEmpty_map]
  refine ⟨by simp only [Substitution.withoutVerdict], fun hoperands => ?_⟩
  rw [changedBefore?_headOf h t hloops hoperands fun x hx => hsame x (hoperands x hx)]

/-- What is known of a node, and of the first of those that stand for it. -/
theorem ofNode?_headOf {n n' : Node} (hn : n ∈ (Graph.build p).nodes) (hhead : p.IsHeadOf n' n) :
    let s? := Substitution.ofNode? (Graph.build p) ((Graph.build p).effects t) (p.definitions t) n
    let s'? := Substitution.ofNode? (Graph.build p.separateNexts)
      ((Graph.build p.separateNexts).effects t) (p.separateNexts.definitions t) n'
    (s'? = none ∧ s? = none) ∨
      ∃ v value s s', n.command? = some (.assign (.scalar v) value) ∧ s? = some s ∧ s'? = some s' ∧
        s.name = v.key ∧ s'.name = v.key ∧
        (v.key ∉ p.laterCounters → s'.withoutVerdict = s.withoutVerdict ∧
          ((∀ x ∈ Substitution.operands value, x ∉ p.laterCounters) → s' = s)) := by
  dsimp only
  by_cases hassign : ∃ v value, n.command? = some (.assign (.scalar v) value)
  · obtain ⟨v, value, hc⟩ := hassign
    rw [Substitution.ofNode?, Substitution.ofNode?, hhead.assign_iff.2 hc, hc]
    dsimp only
    rw [Substitution.ofAssignment?, Substitution.ofAssignment?, hhead.id_eq]
    split
    · exact .inl ⟨rfl, rfl⟩
    · rcases before_headOf h hloops t n.id with ⟨hat, hat'⟩ | ⟨fact, fact', hat, hat', hsame⟩
      · exact .inl ⟨by rw [hat', Option.map_none], by rw [hat, Option.map_none]⟩
      · rw [hat, hat', Option.map_some, Option.map_some]
        exact .inr ⟨v, value, _, _, rfl, rfl, rfl, rfl, rfl, fun hv =>
          ofDefinitions_headOf h t hloops hn hhead hc hv hsame⟩
  · push Not at hassign
    refine .inl ⟨Substitution.ofNode?_eq_none fun v value hc' => ?_,
      Substitution.ofNode?_eq_none hassign⟩
    exact hassign v value (hhead.assign_iff.1 hc')

end Reads

end Program

/-! ## Records -/

/-- The node assigns to a scalar, and neither it nor an operand of the value is among the names. -/
def Node.assignsApart (names : List String) (n : Node) : Bool :=
  match n.command? with
  | some (.assign (.scalar v) value) =>
    decide (v.key ∉ names ∧ ∀ x ∈ Substitution.operands value, x ∉ names)
  | _ => false

theorem Node.assignsApart_of_assign {names : List String} {n : Node} {v : Name}
    {value : Expr Float} (hc : n.command? = some (.assign (.scalar v) value)) :
    n.assignsApart names = true ↔
      v.key ∉ names ∧ ∀ x ∈ Substitution.operands value, x ∉ names := by
  rw [assignsApart, hc]
  exact decide_eq_true_iff

/-- What is known of the assignments in which none of the names has a part. -/
def substitutionsApart (names : List String) (g : Graph) (effects : Array Effects) :
    List Substitution :=
  let solution := (reachingDefinitions effects).solve g
  (g.nodes.toList.filter (Node.assignsApart names)).filterMap
    (Substitution.ofNode? g effects solution)

section Lists

variable {p : Program} (h : (Graph.build p).issues = []) (t : SymbolTable)
include h

theorem exists_extends_separateNexts {s : Substitution}
    (hs : s ∈ findSubstitutions (Graph.build p) ((Graph.build p).effects t))
    (hname : s.name ∉ p.laterCounters) :
    ∃ s' ∈ findSubstitutions (Graph.build p.separateNexts)
      ((Graph.build p.separateNexts).effects t), s'.Extends s := by
  obtain ⟨n, hn, hs⟩ := List.mem_filterMap.1 hs
  obtain ⟨n', hn', hhead⟩ := Program.exists_isHeadOf (Array.mem_toList_iff.1 hn)
  obtain ⟨s', hs', hextends⟩ :=
    Program.exists_extends_headOf h t (Array.mem_toList_iff.1 hn) hhead hs hname
  exact ⟨s', List.mem_filterMap.2 ⟨n', Array.mem_toList_iff.2 hn', hs'⟩, hextends⟩

variable (hloops : (Graph.build p).InnerLoopsIterate)
include hloops

theorem map_withoutVerdict_separateNexts :
    ((findSubstitutions (Graph.build p.separateNexts)
        ((Graph.build p.separateNexts).effects t)).filter fun s =>
          s.name ∉ p.laterCounters).map Substitution.withoutVerdict =
      ((findSubstitutions (Graph.build p) ((Graph.build p).effects t)).filter fun s =>
        s.name ∉ p.laterCounters).map Substitution.withoutVerdict := by
  simp only [findSubstitutions, Substitution.ofSolution, List.filter_filterMap, List.map_filterMap]
  refine Program.filterMap_nodes_separateNexts (fun n hn n' hhead => ?_) fun n' counters hc => ?_
  · rcases Program.ofNode?_headOf h t hloops hn hhead with
      ⟨hs', hs⟩ | ⟨v, value, s, s', -, hs, hs', hname, hname', heq⟩
    · rw [Program.definitions] at hs hs'
      rw [hs, hs']
    · rw [Program.definitions] at hs hs'
      rw [hs, hs', Option.filter_some, Option.filter_some, hname, hname']
      by_cases hv : v.key ∈ p.laterCounters
      · simp [hv]
      · simp [hv, (heq hv).1]
  · rw [Substitution.ofNode?_next hc, Option.filter_none, Option.map_none]

theorem substitutionsApart_separateNexts :
    substitutionsApart p.laterCounters (Graph.build p.separateNexts)
        ((Graph.build p.separateNexts).effects t) =
      substitutionsApart p.laterCounters (Graph.build p) ((Graph.build p).effects t) := by
  simp only [substitutionsApart, List.filterMap_filter]
  refine Program.filterMap_nodes_separateNexts (fun n hn n' hhead => ?_) fun n' counters hc => ?_
  · rcases Program.ofNode?_headOf h t hloops hn hhead with
      ⟨hs', hs⟩ | ⟨v, value, s, s', hc, hs, hs', -, -, heq⟩
    · rw [Program.definitions] at hs hs'
      rw [hs, hs', ite_self, ite_self]
    · rw [Program.definitions] at hs hs'
      have hc' := hhead.assign_iff.2 hc
      simp only [hs, hs', Node.assignsApart_of_assign hc, Node.assignsApart_of_assign hc']
      split
      next hapart => rw [(heq hapart.1).2 hapart.2]
      next => rfl
  · rw [Substitution.ofNode?_next hc, ite_self]

end Lists

/--
With separate `NEXT` statements, no use of an assignment is lost, unless the scalar is a later
counter of a list. If no inner loop of a list can be skipped, none is gained either: the records of
such assignments are the same but for the verdict, and the verdict is the same, too, if no later
counter is an operand.
-/
theorem findSubstitutions_separateNexts (p : Program) (h : (Graph.build p).issues = []) :
    let effects (p' : Program) := (Graph.build p').effects (SymbolTable.build p').table
    let records (p' : Program) := findSubstitutions (Graph.build p') (effects p')
    let recordsOfOthers (p' : Program) :=
      ((records p').filter fun s => s.name ∉ p.laterCounters).map Substitution.withoutVerdict
    let recordsApart (p' : Program) :=
      substitutionsApart p.laterCounters (Graph.build p') (effects p')
    (∀ s ∈ records p, s.name ∉ p.laterCounters → ∃ s' ∈ records p.separateNexts, s'.Extends s) ∧
      ((Graph.build p).InnerLoopsIterate →
        recordsOfOthers p.separateNexts = recordsOfOthers p ∧
          recordsApart p.separateNexts = recordsApart p) := by
  simp only [SymbolTable.build_separateNexts]
  refine ⟨fun s => exists_extends_separateNexts h _, fun hloops => ⟨?_, ?_⟩⟩
  · exact map_withoutVerdict_separateNexts h _ hloops
  · exact substitutionsApart_separateNexts h _ hloops

/-! ## Lists of two counters -/

namespace CounterList

def scalar (key : String) : Expr Float := .scalar ⟨key⟩

/-- A loop from one. -/
def loop (counter : String) (stop : Expr Float) : Command :=
  .forLoop ⟨counter⟩ (.number 1 "1") stop none

def print (key : String) : Command := .print none [.expr (scalar key)]

/-- A loop over `I` around a loop over `J`; the list `J, I` closes both. -/
def program (outer : List Command) (stop : Expr Float) (inner : List Command) : Program :=
  let commands : List Command :=
    [.input none none [.scalar ⟨"A"⟩, .scalar ⟨"B"⟩], loop "I" (scalar "A")] ++ outer ++
      [loop "J" stop] ++ inner ++ [.next [⟨"J"⟩, ⟨"I"⟩]]
  ⟨commands.zipIdx.map fun (c, i) =>
    ⟨10 * (i + 1), [.command ⟨10 * (i + 1), 4⟩ c], i + 1⟩⟩

/-- The assignment of `left * right`. -/
def assignProduct (key : String) (left right : Expr Float) : Command :=
  .assign (.scalar ⟨key⟩) (.binary .mul left right)

/-- `T` is assigned and read in the inner loop, the body of which always runs. -/
def iterating : Program :=
  program [] (.number 3 "3") [assignProduct "T" (scalar "A") (scalar "B"), print "T"]

/-- `T` is assigned before the inner loop, which may be skipped and else overwrites it, and is read
in the next round of the outer loop. -/
def skipping : Program :=
  program [print "T", assignProduct "T" (scalar "A") (scalar "B")] (scalar "B")
    [.assign (.scalar ⟨"T"⟩) (.number 0 "0")]

/-- The counter of the outer loop is assigned and read in the inner one. -/
def stepping : Program :=
  program [] (.number 3 "3") [print "I", assignProduct "I" (scalar "B") (.number 2 "2")]

/-- The lines of assignments, with the lines that read what they assign. -/
def useLines (p : Program) : List (Nat × List Nat) :=
  (findSubstitutions (Graph.build p) ((Graph.build p).effects (SymbolTable.build p).table)).map
    fun s => (s.line, s.useLines)

end CounterList

open CounterList in
/-- The loops of a list may stand apart where the inner one cannot be skipped. -/
theorem findSubstitutions_separateNexts_iterating :
    let records (p : Program) := substitutionsApart iterating.laterCounters (Graph.build p)
      ((Graph.build p).effects (SymbolTable.build p).table)
    records iterating.separateNexts = records iterating ∧
      (records iterating).map Substitution.useLines = [[50]] := by
  have hissues : (Graph.build iterating).issues = [] := by decide +kernel
  have hloops : (Graph.build iterating).InnerLoopsIterate := by decide +kernel
  obtain ⟨-, happly⟩ := findSubstitutions_separateNexts iterating hissues
  exact ⟨(happly hloops).2, by decide +kernel⟩

open CounterList in
/--
A skipped inner loop leaves the whole list of counters, and each round of an inner loop steps all
counters of the list. Neither happens with separate `NEXT` statements.
-/
theorem findSubstitutions_ne_separateNexts :
    ((Graph.build skipping).issues = [] ∧
      useLines skipping = [(40, [])] ∧ useLines skipping.separateNexts = [(40, [30])]) ∧
    (Graph.build stepping).issues = [] ∧
      useLines stepping = [(50, [60])] ∧ useLines stepping.separateNexts = [(50, [40, 60])] := by
  decide +kernel

end LineBasic
