import LineBasic.Loop.Summary
import LineBasic.Proofs.Flow.CanonicalSpelling

/-!
# Loops in the canonical spelling

The summaries of the counted loops of a graph are the same in the canonical spelling.
-/

namespace LineBasic

/-! ## Constants -/

theorem definitionsOf_canonically (name : String) (effects : List Effects) :
    definitionsOf name (effects.map Effects.canonically) = definitionsOf name effects := by
  rw [definitionsOf, List.flatMap_map, definitionsOf]
  rfl

theorem constantAssignment?_canonically (effects : List Effects) (n : Node) :
    constantAssignment? (effects.map Effects.canonically) n.canonically =
      constantAssignment? effects n := by
  rw [constantAssignment?, n.command?_canonically, constantAssignment?]
  cases n.command? with
  | none => rfl
  | some c =>
    cases c with
    | assign target value =>
      cases target with
      | element => rfl
      | scalar name =>
        simp only [Option.map, Command.canonically, Target.canonically, Name.key_key,
          definitionsOf_canonically, Expr.constantNumber?_canonically]
        rfl
    | _ => rfl

theorem constantAssignments_canonically (g : Graph) (effects : Array Effects) :
    constantAssignments g.canonically (effects.map Effects.canonically) =
      constantAssignments g effects := by
  simp only [constantAssignments, g.toList_nodes_canonically, Array.toList_map, List.filterMap_map,
    Function.comp_def, constantAssignment?_canonically]

theorem programConstants_canonically (g : Graph) (effects : Array Effects) :
    programConstants g.canonically (effects.map Effects.canonically) =
      programConstants g effects := by
  rw [programConstants, constantAssignments_canonically, programConstants]

namespace LoopContext

/-- The context with its statements in the canonical spelling. -/
def canonically (ctx : LoopContext) : LoopContext :=
  { ctx with graph := ctx.graph.canonically, effects := ctx.effects.map Effects.canonically }

theorem ofGraph_canonically (g : Graph) (effects : Array Effects) :
    ofGraph g.canonically (effects.map Effects.canonically) = (ofGraph g effects).canonically := by
  rw [ofGraph, programConstants_canonically, definiteAssignment_canonically,
    ForwardAnalysis.solve_canonically]
  rfl

variable (ctx : LoopContext)

theorem effectsAt_canonically (id : NodeId) :
    ctx.canonically.effectsAt id = (ctx.effectsAt id).canonically := by
  rw [effectsAt, canonically, getElem?_map_canonically, effectsAt]
  cases ctx.effects[id]? <;> rfl

theorem constantAt?_canonically (id : NodeId) (e : Expr Float) :
    ctx.canonically.constantAt? id e.canonically = ctx.constantAt? id e := by
  rw [constantAt?, Expr.evaluate?_canonically]
  rfl

theorem body_canonically (l : ForLoop) :
    ctx.canonically.body l = (ctx.body l).map Node.canonically := by
  rw [body, canonically, Graph.toList_nodes_canonically, List.filter_map, body]
  congr 2
  funext n
  simp only [Function.comp_apply, Node.canonically, Option.isSome_map]

/-! ## Invariants -/

theorem isInvariant_canonically (written : List String) (e : Expr Float) :
    isInvariant written e.canonically = isInvariant written e := by
  unfold isInvariant
  rw [Expr.hasSideEffects_canonically, Expr.constant?_canonically, Expr.readTags_canonically]
  cases e with
  | intrinsic f args => simp only [Expr.canonically, Expr.isEmpty_canonicallyList]
  | unary op operand => simp only [Expr.canonically, Expr.isTrivial_canonically]
  | _ => rfl

/-- The occurrence of an expression in the canonical spelling. -/
def Occurrence.canonically (o : Occurrence) : Occurrence := { o with expr := o.expr.canonically }

theorem invariantOccurrences_canonically (l : ForLoop) :
    ctx.canonically.invariantOccurrences l =
      (ctx.invariantOccurrences l).map Occurrence.canonically := by
  have hdepth : (ctx.canonically.graph.node? l.forNode).map Node.depth =
      (ctx.graph.node? l.forNode).map Node.depth := by
    rw [canonically, Graph.node?_canonically, Option.map_map]
    rfl
  have hwritten : (ctx.canonically.body l).flatMap
      (fun n => (ctx.canonically.effectsAt n.id).writtenTags) =
        (ctx.body l).flatMap fun n => (ctx.effectsAt n.id).writtenTags := by
    simp only [body_canonically, effectsAt_canonically, List.flatMap_map]
    rfl
  simp only [invariantOccurrences, hdepth, hwritten]
  simp only [body_canonically, effectsAt_canonically, List.flatMap_map, List.map_flatMap,
    Effects.canonically, Expr.largest_canonically (isInvariant_canonically _)]
  simp only [← List.map_flatMap, ← List.map_reverse, List.map_map]
  rfl

theorem invariants_canonically (l : ForLoop) (callsSubroutine : Bool) :
    ctx.canonically.invariants l callsSubroutine = ctx.invariants l callsSubroutine := by
  have hkeyed : (ctx.canonically.invariantOccurrences l).map (fun o => (o.expr.key, o)) =
      ((ctx.invariantOccurrences l).map fun o => (o.expr.key, o)).map
        (Prod.map id Occurrence.canonically) := by
    simp only [invariantOccurrences_canonically, List.map_map, Function.comp_def, Prod.map,
      Occurrence.canonically, Expr.key_canonically, id]
  rw [invariants, hkeyed, invariants]
  generalize (ctx.invariantOccurrences l).map (fun o => (o.expr.key, o)) = keyed
  have hkeys : (keyed.map (Prod.map id Occurrence.canonically)).map Prod.fst =
      keyed.map Prod.fst := List.map_map ..
  have hfiltered (key : String) : ((keyed.map (Prod.map id Occurrence.canonically)).filter
      fun entry => entry.1 == key).map Prod.snd =
        ((keyed.filter fun entry => entry.1 == key).map Prod.snd).map Occurrence.canonically := by
    rw [List.filter_map, List.map_map, List.map_map]
    rfl
  simp only [hkeys, hfiltered]
  congr 1
  funext key
  cases (keyed.filter fun entry => entry.1 == key).map Prod.snd with
  | nil => rfl
  | cons first rest =>
    simp only [List.map_cons, List.foldl_map, List.length_map, List.all_cons, List.all_map,
      Occurrence.canonically, Expr.canonical_canonically]
    rfl

/-! ## Induction variables -/

theorem scaled?_eq (left right : Expr Float) :
    scaled? left right = match left.scalarKey?, right.scalarKey? with
      | some name, _ => right.number?.map fun c => (name, c)
      | none, some name => left.number?.map fun c => (name, c)
      | none, none => none := by
  cases left <;> cases right <;> rfl

theorem scaled?_canonically (left right : Expr Float) :
    scaled? left.canonically right.canonically = scaled? left right := by
  simp only [scaled?_eq, Expr.scalarKey?_canonically, Expr.number?_canonically]

theorem linearIn?_add (counter : String) (left right : Expr Float) :
    linearIn? counter (.binary .add left right) =
      if left.scalarKey? == some counter then right.number?.map fun c => (1, c)
      else if right.scalarKey? == some counter then left.number?.map fun c => (1, c)
      else none := by
  cases left <;> cases right <;> rfl

theorem linearIn?_sub (counter : String) (left right : Expr Float) :
    linearIn? counter (.binary .sub left right) =
      if left.scalarKey? == some counter then right.number?.map fun c => (1, -c) else none := by
  cases left <;> rfl

theorem linearIn?_canonically (counter : String) (e : Expr Float) :
    linearIn? counter e.canonically = linearIn? counter e := by
  cases e with
  | scalar name => simp only [Expr.canonically, linearIn?, Name.key_key]
  | binary op left right =>
    cases op with
    | mul => simp only [Expr.canonically, linearIn?, scaled?_canonically]
    | add =>
      simp only [Expr.canonically, linearIn?_add, Expr.scalarKey?_canonically,
        Expr.number?_canonically]
    | sub =>
      simp only [Expr.canonically, linearIn?_sub, Expr.scalarKey?_canonically,
        Expr.number?_canonically]
    | _ => rfl
  | _ => rfl

theorem derived_canonically (l : ForLoop) : ctx.canonically.derived l = ctx.derived l := by
  have heffects : (ctx.canonically.body l).map (fun n => ctx.canonically.effectsAt n.id) =
      ((ctx.body l).map fun n => ctx.effectsAt n.id).map Effects.canonically := by
    simp only [body_canonically, effectsAt_canonically, List.map_map]
    rfl
  simp only [derived, heffects, definitionsOf_canonically]
  rw [body_canonically, List.filterMap_map]
  congr 1
  funext n
  rw [Function.comp_apply, n.command?_canonically]
  cases n.command? with
  | none => rfl
  | some c =>
    cases c with
    | assign target value =>
      cases target with
      | element => rfl
      | scalar name =>
        simp only [Option.map, Command.canonically, Target.canonically, Name.key_key,
          linearIn?_canonically]
        rfl
    | _ => rfl

/-! ## Subscripts -/

theorem targetSubscripts_canonically (c : Command) :
    targetSubscripts c.canonically = (targetSubscripts c).map (Prod.map id Expr.canonically) := by
  have htargets : (c.canonically.targets.flatMap fun target =>
      target.subscripts.map fun e => (target.name.key, e)) =
      (c.targets.flatMap fun target =>
        target.subscripts.map fun e => (target.name.key, e)).map (Prod.map id Expr.canonically) := by
    simp only [c.targets_canonically, List.flatMap_map, List.map_flatMap,
      Target.subscripts_canonically, Target.key_name_canonically, List.map_map]
    rfl
  cases c with
  | swap => rfl
  | _ => exact htargets

theorem otherRoots_canonically (s : Statement) :
    otherRoots s.canonically = (otherRoots s).map Expr.canonically := by
  cases s with
  | conditional _ _ _ onFalse => cases onFalse <;> rfl
  | command _ c =>
    have hsources : (c.canonically.sources.filter Evaluated.isRoot).map Evaluated.expr =
        ((c.sources.filter Evaluated.isRoot).map Evaluated.expr).map Expr.canonically := by
      rw [c.sources_canonically, List.filter_map, List.map_map, List.map_map]
      rfl
    have htargets : c.canonically.targets.flatMap Target.subscripts =
        (c.targets.flatMap Target.subscripts).map Expr.canonically := by
      simp only [c.targets_canonically, List.flatMap_map, List.map_flatMap,
        Target.subscripts_canonically]
    cases c with
    | swap => exact htargets
    | _ => exact hsources

theorem subscripts_canonically (s : Statement) :
    subscripts s.canonically = (subscripts s).map (Prod.map id Expr.canonically) := by
  have htargets : s.canonically.command?.elim [] targetSubscripts =
      (s.command?.elim [] targetSubscripts).map (Prod.map id Expr.canonically) := by
    rw [s.command?_canonically]
    cases s.command? with
    | none => rfl
    | some c => exact targetSubscripts_canonically c
  rw [subscripts, htargets, otherRoots_canonically, ← Expr.canonicallyList_eq_map,
    Expr.subtermsFromRightOfList_canonicallyList, List.flatMap_map, subscripts, List.map_append,
    List.map_flatMap]
  congr 2
  funext e
  cases e with
  | element name subscripts =>
    simp only [Expr.canonically, Name.key_key, Expr.canonicallyList_eq_map, List.map_map]
    rfl
  | _ => rfl

theorem stepped?_canonically (counter : String) (derived : List InductionVariable)
    (term : Expr Float) : stepped? counter derived term.canonically =
      stepped? counter derived term := by
  cases term with
  | scalar name => simp only [Expr.canonically, stepped?, Name.key_key]
  | binary op left right =>
    cases op with
    | mul => simp only [Expr.canonically, stepped?, scaled?_canonically]
    | _ => rfl
  | _ => rfl

theorem subscriptReductions_canonically (l : ForLoop) (derived : List InductionVariable) :
    ctx.canonically.subscriptReductions l derived = ctx.subscriptReductions l derived := by
  have hlargest := Expr.largest_canonically
    (p := fun e => (stepped? l.counter derived e).isSome) fun e => by rw [stepped?_canonically]
  rw [subscriptReductions, body_canonically, List.flatMap_map, subscriptReductions]
  congr 1
  funext n
  simp only [Node.canonically]
  cases n.statement with
  | none => rfl
  | some s =>
    simp only [Option.map, Option.elim, subscripts_canonically, List.flatMap_map, Prod.map, id,
      hlargest, ← List.map_reverse, List.filterMap_map,
      Function.comp_def, stepped?_canonically, Expr.canonical_canonically]

/-! ## Summaries -/

theorem summary_canonically (l : ForLoop) (start stop : Expr Float) (step : Option (Expr Float)) :
    ctx.canonically.summary l start.canonically stop.canonically (step.map Expr.canonically) =
      ctx.summary l start stop step := by
  have hcalls : ((ctx.canonically.body l).any fun n =>
      n.successors.any fun edge => edge.2 == .call) =
        (ctx.body l).any fun n => n.successors.any fun edge => edge.2 == .call := by
    rw [body_canonically, List.any_map]
    rfl
  have hlines (id : NodeId) : ctx.canonically.graph.lineOf id = ctx.graph.lineOf id :=
    ctx.graph.lineOf_canonically id
  simp only [summary, constantAt?_canonically, Option.elim_map, Function.comp_def, hcalls, hlines,
    derived_canonically, invariants_canonically, subscriptReductions_canonically]
  rfl

theorem summaries_canonically : ctx.canonically.summaries = ctx.summaries := by
  rw [summaries, summaries]
  congr 1
  funext l
  rw [canonically, Graph.node?_canonically]
  cases ctx.graph.node? l.forNode with
  | none => rfl
  | some n =>
    simp only [Option.map, Option.bind, n.command?_canonically]
    cases n.command? with
    | none => rfl
    | some c =>
      cases c with
      | forLoop counter start stop step =>
        exact congrArg (fun found => if ctx.graph.isReachable l.forNode then some found else none)
          (ctx.summary_canonically l start stop step)
      | _ => rfl

end LoopContext
end LineBasic
