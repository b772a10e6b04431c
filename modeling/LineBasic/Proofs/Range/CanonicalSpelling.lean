import LineBasic.Proofs.Flow.CanonicalSpelling
import LineBasic.Range.Condition
import LineBasic.Range.Inference

/-!
# Ranges in the canonical spelling

Ranges of integer scalars, and ranges in the arms of conditions, are the same for a program in the
canonical spelling.
-/

namespace LineBasic

/-! ## Integer scalars -/

/-- What is stored, its expressions in the canonical spelling. -/
def Stored.canonically : Stored → Stored
  | value e => value e.canonically
  | counter start stop step =>
    counter start.canonically stop.canonically (step.map Expr.canonically)
  | anything => anything

@[simp] theorem Stored.interval?_canonically (states : String → RangeState) (stored : Stored) :
    stored.canonically.interval? states = stored.interval? states := by
  cases stored with
  | value e => exact e.interval?_canonically states
  | anything => rfl
  | counter start stop step =>
    cases step <;> simp only [canonically, interval?, Option.map, Expr.interval?_canonically]

theorem Command.stores_canonically (c : Command) :
    c.canonically.stores = c.stores.map (Prod.map id Stored.canonically) := by
  have hanything (targets : List (Target Float)) :
      stores.anyInto (targets.map Target.canonically) =
        (stores.anyInto targets).map (Prod.map id Stored.canonically) := by
    simp only [stores.anyInto, List.filterMap_map, List.map_filterMap, Function.comp_def,
      Target.scalarKey?_canonically, Option.map_map]
    rfl
  cases c with
  | assign target value =>
    cases target with
    | scalar name => exact congrArg (fun key => [(key, Stored.value _)]) name.key_key
    | element => rfl
  | forLoop counter start stop step =>
    exact congrArg (fun key => [(key, Stored.counter ..)]) counter.key_key
  | input _ _ targets => exact hanything targets
  | read targets => exact hanything targets
  | lineInput _ _ target => exact hanything [target]
  | swap left right => exact hanything [left, right]
  | _ => rfl

namespace RangeStates

theorem start_canonically (t : SymbolTable) (stores : List (String × Stored)) :
    start t.canonically (stores.map (Prod.map id Stored.canonically)) = start t stores := by
  simp only [start, List.foldl_map, Prod.map, id, t.getElem?_scalars_canonically,
    Option.all_map]
  rfl

theorem round_canonically (stores : List (String × Stored)) (states : RangeStates) :
    round (stores.map (Prod.map id Stored.canonically)) states = round stores states := by
  simp only [round, List.foldl_map, Prod.map, id, Stored.interval?_canonically]

theorem settle_canonically (stores : List (String × Stored)) (limit n rounds : Nat)
    (states : RangeStates) :
    settle (stores.map (Prod.map id Stored.canonically)) limit n rounds states =
      settle stores limit n rounds states := by
  induction n generalizing rounds states with
  | zero => rfl
  | succ n ih => simp only [settle, round_canonically, ih]

end RangeStates

theorem inferIntegerRanges_canonically (g : Graph) (t : SymbolTable) (limit : Nat) :
    inferIntegerRanges g.canonically t.canonically limit = inferIntegerRanges g t limit := by
  have hstores : (g.canonically.nodes.toList.filter fun n => g.canonically.isReachable n.id).flatMap
      (fun n => n.command?.elim [] Command.stores) =
      ((g.nodes.toList.filter fun n => g.isReachable n.id).flatMap
        fun n => n.command?.elim [] Command.stores).map (Prod.map id Stored.canonically) := by
    rw [g.toList_nodes_canonically, List.filter_map, List.flatMap_map, List.map_flatMap]
    congr 1
    funext n
    rw [n.command?_canonically]
    cases n.command? with
    | none => rfl
    | some c => exact c.stores_canonically
  simp only [inferIntegerRanges, hstores, RangeStates.start_canonically,
    RangeStates.settle_canonically]

/-! ## Arms of conditions -/

@[simp] theorem Statement.writtenScalars_canonically (s : Statement) :
    s.canonically.writtenScalars = s.writtenScalars := by
  cases s with
  | conditional _ _ _ onFalse => cases onFalse <;> rfl
  | command _ c =>
    cases c <;>
      simp only [Statement.canonically, Command.canonically, writtenScalars, List.filterMap_map,
        Function.comp_def, Target.scalarKey?_canonically, List.map_map, Name.key_key]

mutual

theorem Statement.conditionRanges_canonically (facts : RangeFacts) :
    (s : Statement) → s.canonically.conditionRanges facts = s.conditionRanges facts
  | .command .. => rfl
  | .conditional place condition onTrue none =>
    Arm.conditionRanges_canonically place.line condition true facts onTrue
  | .conditional place condition onTrue (some onFalse) =>
    congrArg₂ (· ++ ·) (Arm.conditionRanges_canonically place.line condition true facts onTrue)
      (Arm.conditionRanges_canonically place.line condition false facts onFalse)

theorem Arm.conditionRanges_canonically (line : Nat) (condition : Expr Float) (isThen : Bool)
    (facts : RangeFacts) : (arm : Arm) →
      arm.canonically.conditionRanges line condition.canonically isThen facts =
        arm.conditionRanges line condition isThen facts
  | .line _ => rfl
  | .block statements => by
    simp only [Arm.canonically, Arm.conditionRanges, enterArm, constraints_canonically,
      conditionRangesOfList_canonically _ statements]

theorem conditionRangesOfList_canonically (facts : RangeFacts) : (statements : List Statement) →
    conditionRangesOfList facts (canonicalStatements statements) =
      conditionRangesOfList facts statements
  | [] => rfl
  | s :: rest => by
    simp only [canonicalStatements, conditionRangesOfList, s.conditionRanges_canonically facts,
      s.writtenScalars_canonically, conditionRangesOfList_canonically _ rest]

end

theorem Program.conditionRanges_canonically (p : Program) :
    p.canonically.conditionRanges = p.conditionRanges := by
  simp only [conditionRanges, statements_canonically, canonicalStatements_eq_map,
    List.flatMap_map, Statement.conditionRanges_canonically]

end LineBasic
