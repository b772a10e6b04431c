import LineBasic.Range.Interval
import LineBasic.Program.Statement

/-!
# Ranges in the arms of conditions

What is known of scalars when control enters an arm: the constraints of the condition, narrowed by
those of the conditions around it. A fact is dropped when a statement of the arm writes the scalar.
-/

namespace LineBasic

/-- What is known of a scalar at the start of an arm. -/
structure ConditionRange where
  name : String
  /-- The line of the `IF`. -/
  line : Nat
  /-- The arm is the one after `THEN`. -/
  isThen : Bool
  range : ValueRange Float

namespace ConditionRange

def armWord (r : ConditionRange) : String := if r.isThen then "THEN" else "ELSE"

/-- The place of the arm in words. -/
def context (r : ConditionRange) : String :=
  r.armWord ++ " branch of line " ++ toString r.line

/-- The value of a scalar with only one value. -/
def constant? (r : ConditionRange) : Option Float :=
  if r.range.isConstant then r.range.lower.map Bound.value else none

/-- The improvement that a known value allows, in words. -/
def improvement? (r : ConditionRange) : Option String :=
  r.constant?.map fun v => "Constant propagation: " ++ r.name ++ " = " ++ Arithmetic.text v

end ConditionRange

/-- What is known of scalars, the latest first. -/
abbrev RangeFacts := List (String × ValueRange Float)

namespace RangeFacts

/-- What is known of a scalar. -/
def known? (facts : RangeFacts) (name : String) : Option (ValueRange Float) := facts.lookup name

def drop (names : List String) (facts : RangeFacts) : RangeFacts :=
  facts.filter fun fact => !names.contains fact.1

/-- Adds constraints one after the other, and lists what is then known of each scalar. -/
def learn (facts : RangeFacts) : List (String × ValueRange Float) → RangeFacts × RangeFacts
  | [] => (facts, [])
  | (name, range) :: rest =>
    let range := (facts.known? name).elim range fun known => known.intersect range
    let (final, learned) := learn ((name, range) :: facts) rest
    (final, (name, range) :: learned)

end RangeFacts

/-- The scalars that a statement writes, those in its arms not included. -/
def Statement.writtenScalars : Statement → List String
  | .conditional .. => []
  | .command _ c => match c with
    | .assign target _ | .lineInput _ _ target => target.scalarKey?.toList
    | .input _ _ targets | .read targets => targets.filterMap Target.scalarKey?
    | .swap left right => left.scalarKey?.toList ++ right.scalarKey?.toList
    | .forLoop counter .. => [counter.key]
    | .next counters => counters.map Name.key
    | _ => []

/-- What is known at the start of an arm, and the facts that hold there. -/
def enterArm (line : Nat) (condition : Expr Float) (isThen : Bool) (facts : RangeFacts) :
    RangeFacts × List ConditionRange :=
  let (facts, learned) := facts.learn (constraints isThen condition)
  (facts, learned.map fun (name, range) => { name, line, isThen, range })

mutual

/-- The ranges in the arms of a statement before which `facts` hold. -/
def Statement.conditionRanges (facts : RangeFacts) : Statement → List ConditionRange
  | .command .. => []
  | .conditional place condition onTrue none =>
    onTrue.conditionRanges place.line condition true facts
  | .conditional place condition onTrue (some onFalse) =>
    onTrue.conditionRanges place.line condition true facts ++
      onFalse.conditionRanges place.line condition false facts

def Arm.conditionRanges (line : Nat) (condition : Expr Float) (isThen : Bool) (facts : RangeFacts) :
    Arm → List ConditionRange
  | .line _ => []
  | .block statements =>
    let (facts, found) := enterArm line condition isThen facts
    found ++ conditionRangesOfList facts statements

def conditionRangesOfList (facts : RangeFacts) : List Statement → List ConditionRange
  | [] => []
  | s :: rest => s.conditionRanges facts ++ conditionRangesOfList (facts.drop s.writtenScalars) rest

end

/-- The ranges in all arms of a program, in the order of the text. -/
def Program.conditionRanges (p : Program) : List ConditionRange :=
  p.statements.flatMap fun s => s.conditionRanges []

end LineBasic
