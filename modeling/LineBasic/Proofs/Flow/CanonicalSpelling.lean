import LineBasic.Flow.AvailableExpressions
import LineBasic.Flow.DefiniteAssignment
import LineBasic.Flow.ReachingDefinitions
import LineBasic.Proofs.Graph.CanonicalSpelling
import LineBasic.Proofs.Symbol.CanonicalSpelling

/-!
# Dataflow in the canonical spelling

The statements of a graph read and write the same variables in the canonical spelling, so the
solver takes the same steps, and the analyses that rest on it find the same.
-/

namespace LineBasic

/-! ## Effects -/

section Reads

variable {ν : Type} [Arithmetic ν]

theorem Expr.readTags_canonically (e : Expr ν) : e.canonically.readTags = e.readTags := by
  rw [readTags, subterms_canonically, List.filterMap_map, readTags]
  congr 1
  funext sub
  cases sub <;> simp only [Function.comp_apply, canonically, ofNumber, Name.key_key]

end Reads

theorem FunctionInfo.freeVariables_canonically (f : FunctionInfo) :
    f.canonically.freeVariables = f.freeVariables := by
  rw [freeVariables, canonically, Expr.subterms_canonically, List.filterMap_map, freeVariables]
  congr 2
  funext sub
  cases sub <;> simp only [Function.comp_apply, Expr.canonically, Expr.ofNumber, Name.key_key]

theorem FunctionInfo.bodyReads_canonically (f : FunctionInfo) :
    f.canonically.bodyReads = f.bodyReads := by
  rw [bodyReads, freeVariables_canonically, canonically, Name.key_key, bodyReads]

namespace SymbolTable

variable (t : SymbolTable)

theorem callReads_canonically (n : Nat) (visiting : List String) (e : Expr Float) :
    t.canonically.callReads n visiting e.canonically = t.callReads n visiting e := by
  induction n generalizing visiting e with
  | zero => rfl
  | succ n ih =>
    rw [callReads, Expr.subterms_canonically, List.flatMap_map, callReads]
    congr 1
    funext sub
    cases sub with
    | call name args =>
      simp only [Expr.canonically, Name.key_key, getElem?_functions_canonically]
      cases t.functions[name.key]? with
      | none => rfl
      | some f =>
        simp only [Option.map, f.bodyReads_canonically]
        rw [FunctionInfo.canonically, ih]
    | _ => rfl

theorem functionReads_canonically (name : String) :
    t.canonically.functionReads name = t.functionReads name := by
  have hsize : t.canonically.functions.size = t.functions.size := Std.ExtTreeMap.size_map
  rw [functionReads, getElem?_functions_canonically, hsize, functionReads]
  cases t.functions[name]? with
  | none => rfl
  | some f =>
    simp only [Option.map, f.bodyReads_canonically]
    exact congrArg _ (t.callReads_canonically t.functions.size [name] f.body)

mutual

theorem exprReads_canonically (context : UseContext) : (e : Expr Float) →
    t.canonically.exprReads context e.canonically = t.exprReads context e
  | .number .. | .string _ => rfl
  | .scalar name => by simp only [Expr.canonically, exprReads, Name.key_key]
  | .element _ subscripts => exprReadsOfList_canonically .subscript subscripts
  | .unary _ operand => exprReads_canonically context operand
  | .binary _ left right => by
    simp only [Expr.canonically, exprReads, exprReads_canonically context left,
      exprReads_canonically context right]
  | .intrinsic _ args => exprReadsOfList_canonically context args
  | .call name args => by
    simp only [Expr.canonically, exprReads, exprReadsOfList_canonically .argument args,
      Name.key_key, t.functionReads_canonically]

theorem exprReadsOfList_canonically (context : UseContext) : (es : List (Expr Float)) →
    t.canonically.exprReadsOfList context (Expr.canonicallyList es) =
      t.exprReadsOfList context es
  | [] => rfl
  | e :: rest => by
    simp only [Expr.canonicallyList, exprReadsOfList, exprReads_canonically context e,
      exprReadsOfList_canonically context rest]

end

end SymbolTable

/-- The evaluation of an expression in the canonical spelling. -/
def Evaluated.canonically (e : Evaluated) : Evaluated := { e with expr := e.expr.canonically }

/-- The effects with the expressions that are evaluated in the canonical spelling. -/
def Effects.canonically (fx : Effects) : Effects :=
  { fx with roots := fx.roots.map Expr.canonically }

namespace Command

theorem evaluated_canonically (context : UseContext) (es : List (Expr Float)) :
    evaluated context (es.map Expr.canonically) =
      (evaluated context es).map Evaluated.canonically := by
  simp only [evaluated, List.map_map]
  rfl

theorem subscriptsOf_canonically (targets : List (Target Float)) :
    subscriptsOf (targets.map Target.canonically) =
      (subscriptsOf targets).map Evaluated.canonically := by
  rw [subscriptsOf, subscriptsOf, ← evaluated_canonically, List.flatMap_map, List.map_flatMap]
  simp only [Target.subscripts_canonically]

theorem sources_canonically (c : Command) :
    c.canonically.sources = c.sources.map Evaluated.canonically := by
  cases c with
  | print channel items =>
    simp only [canonically, sources, List.map_append, ← evaluated_canonically, Option.toList_map,
      List.filterMap_map, List.map_filterMap]
    congr 3
    funext item
    cases item <;> rfl
  | dim arrays =>
    simp only [canonically, sources, ArrayDecl.canonically, List.flatMap_map, List.map_flatMap,
      List.map_map, Function.comp_def]
    rfl
  | forLoop counter start stop step =>
    simp only [canonically, sources, ← evaluated_canonically, List.map_cons, Option.toList_map]
  | input channel | lineInput channel | randomize channel =>
    simp only [canonically, sources, ← evaluated_canonically, Option.toList_map]
  | device _ args => exact evaluated_canonically .expression args
  | _ => rfl

theorem targets_canonically (c : Command) :
    c.canonically.targets = c.targets.map Target.canonically := by
  cases c <;> rfl

theorem evaluations_canonically (c : Command) :
    c.canonically.evaluations = c.evaluations.map Evaluated.canonically := by
  rw [evaluations, sources_canonically, targets_canonically, subscriptsOf_canonically,
    ← List.map_append, evaluations]

theorem written_canonically (targets : List (Target Float)) :
    effects.written (targets.map Target.canonically) = effects.written targets := by
  simp only [effects.written, List.filterMap_map, Function.comp_def, Target.scalarKey?_canonically]

theorem writtenArrays_canonically (targets : List (Target Float)) :
    effects.writtenArrays (targets.map Target.canonically) = effects.writtenArrays targets := by
  rw [effects.writtenArrays, List.filterMap_map, effects.writtenArrays]
  congr 1
  funext target
  cases target <;> simp only [Function.comp_apply, Target.canonically, Name.key_key]

theorem steppedCounters_canonically (closed : List ForLoop) (counters : List Name) :
    steppedCounters closed (counters.map fun counter => ⟨counter.key⟩) =
      steppedCounters closed counters := by
  cases counters <;>
    simp only [steppedCounters, List.map_nil, List.map_cons, List.map_map, Function.comp_def,
      Name.key_key]

/-- The effects of evaluating expressions, after which variables are written. -/
def effectsOf (t : SymbolTable) (evaluated : List Evaluated) (defs arrayDefs : List String) :
    Effects :=
  { uses := evaluated.flatMap fun e => t.exprReads e.context e.expr
    defs
    arrayDefs
    roots := (evaluated.filter Evaluated.isRoot).map Evaluated.expr }

theorem effectsOf_canonically (t : SymbolTable) (evaluated : List Evaluated)
    (defs arrayDefs : List String) :
    effectsOf t.canonically (evaluated.map Evaluated.canonically) defs arrayDefs =
      (effectsOf t evaluated defs arrayDefs).canonically := by
  simp only [effectsOf, Effects.canonically, List.flatMap_map, Evaluated.canonically,
    t.exprReads_canonically, List.filter_map, List.map_map]
  rfl

theorem effects_swap_canonically (t : SymbolTable) (closed : List ForLoop)
    (left right : Target Float) :
    (swap left right).canonically.effects t.canonically closed =
      ((swap left right).effects t closed).canonically := by
  have huses (target : Target Float) :=
    congrArg Effects.uses (effectsOf_canonically t (subscriptsOf [target]) [] [])
  have hroots :=
    congrArg Effects.roots (effectsOf_canonically t (subscriptsOf [left, right]) [] [])
  have hdefs := written_canonically [left, right]
  have harrays := writtenArrays_canonically [left, right]
  simp only [← subscriptsOf_canonically, effectsOf, Effects.canonically, List.map_cons,
    List.map_nil] at huses hroots hdefs harrays
  simp only [canonically, effects, Effects.canonically, huses, hroots, hdefs, harrays]
  cases left <;> cases right <;> simp only [Target.canonically, Name.key_key]

theorem effects_canonically (t : SymbolTable) (closed : List ForLoop) (c : Command) :
    c.canonically.effects t.canonically closed = (c.effects t closed).canonically := by
  have htargets : effectsOf t.canonically c.canonically.evaluations
      (effects.written c.canonically.targets) (effects.writtenArrays c.canonically.targets) =
      (effectsOf t c.evaluations (effects.written c.targets)
        (effects.writtenArrays c.targets)).canonically := by
    rw [evaluations_canonically, targets_canonically, written_canonically,
      writtenArrays_canonically, effectsOf_canonically]
  cases c with
  | swap left right => exact effects_swap_canonically t closed left right
  | next counters =>
    simp only [canonically, effects, steppedCounters_canonically]
    rfl
  | forLoop counter start stop step =>
    have hcounter := effectsOf_canonically t (forLoop counter start stop step).evaluations
      [counter.key] []
    rw [← evaluations_canonically] at hcounter
    refine Eq.trans ?_ hcounter
    exact congrArg (fun key => effectsOf t.canonically _ [key] []) counter.key_key
  | _ => exact htargets

end Command

theorem Statement.effects_canonically (t : SymbolTable) (closed : List ForLoop) (s : Statement) :
    s.canonically.effects t.canonically closed = (s.effects t closed).canonically := by
  cases s with
  | command _ body => exact body.effects_canonically t closed
  | conditional _ condition _ onFalse =>
    have hreads := t.exprReads_canonically .condition condition
    cases onFalse <;> exact congrArg (Effects.mk · [] [] [condition.canonically]) hreads

theorem Graph.effects_canonically (g : Graph) (t : SymbolTable) :
    g.canonically.effects t.canonically = (g.effects t).map Effects.canonically := by
  simp only [effects, canonically, Array.map_map]
  congr 1
  funext n
  simp only [Function.comp_apply, Node.canonically]
  cases n.statement with
  | none => rfl
  | some s => exact s.effects_canonically t _

/-! ## The solver -/

section Solver

variable {φ : Type} [BEq φ] (a : ForwardAnalysis φ) (g : Graph)

theorem Graph.contextSteps_canonically (at' : ContextNode) :
    g.canonically.contextSteps at' = g.contextSteps at' := by
  rw [contextSteps, node?_canonically, contextSteps]
  cases g.node? at'.1 with
  | none => rfl
  | some n =>
    simp only [Option.map, Node.command?_canonically, next_canonically]
    obtain ⟨id, calls⟩ := at'
    cases n.command? with
    | none => rfl
    | some c => cases c <;> cases calls <;> rfl

theorem Graph.contextSuccessors_canonically (at' : ContextNode) :
    g.canonically.contextSuccessors at' = g.contextSuccessors at' := by
  rw [contextSuccessors, contextSteps_canonically, contextSuccessors]

theorem ForwardAnalysis.visit_canonically (key : ContextNode) (s : SolverState φ) :
    a.visit g.canonically key s = a.visit g key s := by
  rw [visit, g.contextSuccessors_canonically, visit]

theorem ForwardAnalysis.iterate_canonically (n : Nat) (s : SolverState φ) :
    a.iterate g.canonically n s = a.iterate g n s := by
  induction n generalizing s with
  | zero => rfl
  | succ n ih =>
    rw [iterate, iterate]
    cases s.queue with
    | nil => rfl
    | cons key rest => simp only [a.visit_canonically, ih]

theorem ForwardAnalysis.solve_canonically : a.solve g.canonically = a.solve g := by
  have hfixpoint : a.fixpoint g.canonically = a.fixpoint g := by
    rw [fixpoint, iterate_canonically, visitBound, g.size_canonically]
    rfl
  rw [solve, hfixpoint, solve]

end Solver

/-! ## Analyses -/

section

variable (g : Graph) (effects : Array Effects)

theorem getElem?_map_canonically (id : NodeId) :
    (effects.map Effects.canonically)[id]? = effects[id]?.map Effects.canonically :=
  Array.getElem?_map

theorem definiteAssignment_canonically :
    definiteAssignment (effects.map Effects.canonically) = definiteAssignment effects := by
  simp only [definiteAssignment, writtenScalars, Array.foldl_map, getElem?_map_canonically,
    Option.elim_map]
  rfl

theorem UninitializedUse.ofSolution_canonically (solution : Solution AssignedSet) :
    ofSolution g.canonically (effects.map Effects.canonically) solution =
      ofSolution g effects solution := by
  rw [ofSolution, g.toList_nodes_canonically, List.flatMap_map, ofSolution]
  congr 1
  funext n
  simp only [ofNode, getElem?_map_canonically, Node.canonically]
  cases solution.before[n.id]? <;> cases effects[n.id]? <;> rfl

theorem reachingDefinitions_canonically :
    reachingDefinitions (effects.map Effects.canonically) = reachingDefinitions effects := by
  simp only [reachingDefinitions, definitionCount, Array.toList_map, List.flatMap_map,
    getElem?_map_canonically, Option.elim_map]
  rfl

end

namespace Substitution

theorem operands_canonically (e : Expr Float) : operands e.canonically = operands e := by
  rw [operands, Expr.subterms_canonically, List.filterMap_map, operands]
  congr 3
  funext sub
  cases sub <;> simp only [Function.comp_apply, Expr.canonically, Expr.ofNumber, Name.key_key]

theorem firstCall?_canonically (e : Expr Float) : firstCall? e.canonically = firstCall? e := by
  rw [firstCall?, Expr.subterms_canonically, List.findSome?_map, firstCall?]
  congr 1
  funext sub
  cases sub <;> simp only [Function.comp_apply, Expr.canonically, Expr.ofNumber, Name.key_key]

theorem isCopy_canonically (e : Expr Float) : isCopy e.canonically = isCopy e := by
  cases e <;> rfl

variable (g : Graph) (effects : Array Effects) (solution : Solution DefinitionSet)

theorem readers_canonically (d : NodeId) (name : String) :
    readers g.canonically (effects.map Effects.canonically) solution d name =
      readers g effects solution d name := by
  rw [readers, g.toList_nodes_canonically, List.flatMap_map, readers]
  congr 1
  funext n
  simp only [getElem?_map_canonically, Node.canonically]
  cases solution.before[n.id]? <;> cases effects[n.id]? <;> rfl

theorem verdict_canonically (value : Expr Float) (changed : Option String) (useLines : List Nat) :
    verdict value.canonically changed useLines = verdict value changed useLines := by
  simp only [verdict, firstCall?_canonically, Expr.hasSideEffects_canonically]

theorem changedBefore?_canonically (name : String) (value : Expr Float)
    (atDefinition : DefinitionSet) (readers : List NodeId) :
    changedBefore? solution name value.canonically atDefinition readers =
      changedBefore? solution name value atDefinition readers := by
  have hchanged (atUse : DefinitionSet) :
      changedOperand? name value.canonically atDefinition atUse =
        changedOperand? name value atDefinition atUse := by
    rw [changedOperand?, operands_canonically, changedOperand?]
  match readers with
  | [] | _ :: _ :: _ => rfl
  | [reader] => exact congrArg (Option.bind solution.before[reader]?) (funext hchanged)

theorem ofDefinitions_canonically (n : Node) (name : Name) (value : Expr Float)
    (atDefinition : DefinitionSet) :
    ofDefinitions g.canonically (effects.map Effects.canonically) solution n.canonically
      ⟨name.key⟩ value.canonically atDefinition =
        ofDefinitions g effects solution n name value atDefinition := by
  have hlines : g.canonically.lineOf = g.lineOf := funext g.lineOf_canonically
  simp only [ofDefinitions, Name.key_key, readers_canonically, verdict_canonically,
    changedBefore?_canonically, Expr.canonical_canonically, Expr.hasSideEffects_canonically, hlines,
    Node.canonically]

theorem ofNode?_canonically (n : Node) :
    ofNode? g.canonically (effects.map Effects.canonically) solution n.canonically =
      ofNode? g effects solution n := by
  rw [ofNode?, n.command?_canonically, ofNode?]
  cases n.command? with
  | none => rfl
  | some c =>
    cases c with
    | assign target value =>
      cases target with
      | element => rfl
      | scalar name =>
        have hdefinitions := funext (ofDefinitions_canonically g effects solution n name value)
        simp only [Option.map, Command.canonically, Target.canonically]
        rw [ofAssignment?, Expr.constant?_canonically, isCopy_canonically, hdefinitions]
        rfl
    | _ => rfl

theorem ofSolution_canonically :
    ofSolution g.canonically (effects.map Effects.canonically) solution =
      ofSolution g effects solution := by
  simp only [ofSolution, g.toList_nodes_canonically, List.filterMap_map, Function.comp_def,
    ofNode?_canonically]

end Substitution

/-! ## Common subexpressions -/

namespace ArrayLayout

theorem index?_canonically (l : ArrayLayout) (indices : List (Expr Float)) :
    l.index? (indices.map Expr.canonically) = (l.index? indices).map Expr.canonically := by
  have hterm (base : Nat) (index : Expr Float) (stride : Nat) :
      term base index.canonically stride = (term base index stride).canonically := by
    simp only [term]
    split_ifs <;> rfl
  have hliteral (base : Nat) (subscripts : List (Expr Float × Nat)) :
      literalPart base (subscripts.map (Prod.map Expr.canonically id)) =
        literalPart base subscripts := by
    simp only [literalPart, List.foldl_map, Prod.map, Expr.number?_canonically, id]
  have hvarying (subscripts : List (Expr Float × Nat)) :
      ((subscripts.map (Prod.map Expr.canonically id)).filter fun x => x.1.number?.isNone).map
        (fun x => term l.base x.1 x.2) =
      ((subscripts.filter fun x => x.1.number?.isNone).map fun x => term l.base x.1 x.2).map
        Expr.canonically := by
    simp only [List.filter_map, List.map_map, Function.comp_def, Prod.map, id, hterm,
      Expr.number?_canonically]
  have hsum (first : Expr Float) (rest : List (Expr Float)) :
      (rest.map Expr.canonically).foldl (.binary .add) first.canonically =
        (rest.foldl (.binary .add) first).canonically := by
    rw [List.foldl_map]
    exact List.foldl_hom Expr.canonically fun _ _ => rfl
  simp only [index?, List.length_map, List.zip_map_left, hliteral, hvarying]
  by_cases hrank : indices.length ≠ l.rank
  · simp only [if_pos hrank, Option.map_none]
  simp only [if_neg hrank]
  cases ((indices.zip l.strides).filter fun x => x.1.number?.isNone).map
      fun x => term l.base x.1 x.2 with
  | nil => rfl
  | cons first rest =>
    simp only [List.map_cons, hsum, Option.map_some]
    split_ifs <;> rfl

end ArrayLayout

namespace Candidate

variable (t : SymbolTable)

theorem isWorthwhile_canonically (e : Expr Float) :
    isWorthwhile e.canonically = isWorthwhile e := by
  unfold isWorthwhile
  rw [Expr.hasSideEffects_canonically, Expr.constant?_canonically]
  congr 1
  cases e with
  | intrinsic f args => exact congrArg not (Expr.isEmpty_canonicallyList args)
  | unary op operand => exact congrArg not operand.isTrivial_canonically
  | _ => rfl

theorem indexOf?_canonically (e : Expr Float) :
    indexOf? t.canonically e.canonically =
      (indexOf? t e).map (Prod.map id Expr.canonically) := by
  cases e with
  | element name subscripts =>
    simp only [Expr.canonically, indexOf?, Name.key_key, t.layout?_canonically,
      Expr.canonicallyList_eq_map, ArrayLayout.index?_canonically]
    cases t.layout? name.key with
    | none => rfl
    | some layout =>
      simp only [Option.bind_eq_bind, Option.bind_some]
      cases layout.index? subscripts <;> rfl
  | _ => rfl

theorem addTo_canonically (e : Expr Float) (inner : List Candidate) :
    addTo t.canonically e.canonically inner = addTo t e inner := by
  have hcandidate : ofExpr t.canonically e.canonically inner.length = ofExpr t e inner.length := by
    rw [ofExpr, indexOf?_canonically, ofExpr]
    cases indexOf? t e <;>
      simp only [Option.map, Prod.map, Expr.canonical_canonically, Expr.key_canonically,
        Expr.readTags_canonically, id]
  rw [addTo, isWorthwhile_canonically, hcandidate, addTo]

mutual

theorem ofTree_canonically : (e : Expr Float) → ofTree t.canonically e.canonically = ofTree t e
  | .number .. | .string _ | .scalar _ => rfl
  | .element name subscripts => by
    rw [ofTree, ← ofTrees_canonically subscripts]
    exact addTo_canonically t (.element name subscripts) _
  | .unary op operand => by
    rw [ofTree, ← ofTree_canonically operand]
    exact addTo_canonically t (.unary op operand) _
  | .binary op left right => by
    rw [ofTree, ← ofTree_canonically left, ← ofTree_canonically right]
    exact addTo_canonically t (.binary op left right) _
  | .intrinsic f args => by
    rw [ofTree, ← ofTrees_canonically args]
    exact addTo_canonically t (.intrinsic f args) _
  | .call name args => by
    rw [ofTree, ← ofTrees_canonically args]
    exact addTo_canonically t (.call name args) _

theorem ofTrees_canonically : (es : List (Expr Float)) →
    ofTrees t.canonically (Expr.canonicallyList es) = ofTrees t es
  | [] => rfl
  | e :: rest => congrArg₂ (· ++ ·) (ofTree_canonically e) (ofTrees_canonically rest)

end

end Candidate

theorem CandidateTable.build_canonically (effects : Array Effects) (t : SymbolTable) :
    build (effects.map Effects.canonically) t.canonically = build effects t := by
  simp only [build, Array.map_map, Function.comp_def, Effects.canonically,
    ← Expr.canonicallyList_eq_map, Candidate.ofTrees_canonically]
  rfl

theorem CommonSubexpression.ofSolution_canonically (g : Graph) (c : CandidateTable)
    (solution : Solution AvailableSet) :
    ofSolution g.canonically c solution = ofSolution g c solution := by
  simp only [ofSolution, assemble, ofSites, g.toList_nodes_canonically, List.flatMap_map,
    g.lineOf_canonically, Node.canonically]

end LineBasic
