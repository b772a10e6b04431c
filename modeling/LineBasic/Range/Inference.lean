import LineBasic.Range.Integer
import LineBasic.Symbol.Table
import LineBasic.Flow.Graph

/-!
# Widths of integer scalars

The range of a scalar is the hull of the values of all its reachable assignments, wherever they
stand. The assignments are evaluated in rounds until no range grows. Scalars whose ranges still grow
after a number of rounds are given up, and the rounds begin anew without them; this ends because
every time at least one more scalar is given up.
-/

namespace LineBasic

/-- What a statement may store in a scalar. -/
inductive Stored where
  | value (e : Expr Float)
  /-- The values of a counter, the one that ends the loop included. -/
  | counter (start stop : Expr Float) (step : Option (Expr Float))
  | anything
  deriving Repr

namespace Stored

/-- An interval around what is stored. -/
def interval? (states : String → RangeState) : Stored → Option Interval
  | value e => e.interval? states
  | anything => none
  | counter start stop step => do
    let step ← match step with
      | some e => ((← e.interval? states).only?).filter fun n => n ≠ 0
      | none => some 1
    let stop ← stop.interval? states
    let last ← Interval.withinReach? (stop.lo + step) (stop.hi + step)
    let start ← start.interval? states
    return (start.hull stop).hull last

end Stored

/-- The scalars that a command stores into, with what it stores. -/
def Command.stores : Command → List (String × Stored)
  | assign (.scalar name) value => [(name.key, .value value)]
  | forLoop counter start stop step => [(counter.key, .counter start stop step)]
  | input _ _ targets | read targets => anyInto targets
  | lineInput _ _ target => anyInto [target]
  | swap left right => anyInto [left, right]
  | _ => []
where
  anyInto (targets : List (Target Float)) : List (String × Stored) :=
    targets.filterMap fun target => target.scalarKey?.map fun key => (key, .anything)

abbrev RangeStates := Std.ExtTreeMap String RangeState

namespace RangeStates

/-- The state of a scalar; one without assignments is zero. -/
def stateOf (states : RangeStates) (name : String) : RangeState :=
  (states[name]?).getD .unassigned

/-- Before the first round; strings have no range. -/
def start (t : SymbolTable) (stores : List (String × Stored)) : RangeStates :=
  stores.foldl (fun states (name, _) =>
    let isNumeric := (t.scalars[name]?).all fun info => info.type.isNumeric
    states.insert name (if isNumeric then .unassigned else .unknown)) ∅

/-- One round: every assignment is evaluated under the same states. -/
def round (stores : List (String × Stored)) (states : RangeStates) : RangeStates :=
  stores.foldl (fun next (name, stored) =>
    next.modify name fun state => state.join (stored.interval? states.stateOf)) states

/-- The scalars whose states differ. -/
def changed (old new : RangeStates) : List String :=
  (new.filter fun name state => old[name]? != some state).keys

/-- Gives up scalars. -/
def giveUp (names : List String) (states : RangeStates) : RangeStates :=
  names.foldl (fun states name => states.insert name .unknown) states

/--
At most `n` rounds, until nothing changes. After every `limit` rounds the scalars that changed in
the last one are given up. Also gives the number of scalars given up each time.
-/
def settle (stores : List (String × Stored)) (limit : Nat) :
    (n rounds : Nat) → RangeStates → RangeStates × List Nat
  | 0, _, states => (states, [])
  | n + 1, rounds, states =>
    let next := round stores states
    match changed states next with
    | [] => (next, [])
    | names =>
      if limit ≤ rounds + 1 then
        let (final, counts) := settle stores limit n 0 (giveUp names next)
        (final, names.length :: counts)
      else settle stores limit n (rounds + 1) next

/-- More rounds than are needed: at most `limit` for every scalar that is given up. -/
def roundBound (limit : Nat) (states : RangeStates) : Nat :=
  (states.size + 1) * (limit + 1) + 1

/-- The ranges of the scalars that fit a width. -/
def ranges (states : RangeStates) : List IntegerRange :=
  states.toList.filterMap fun (name, state) => match state with
    | .bounded values => (IntegerWidth.ofRange? values.lo values.hi).map fun width =>
      { name, min := values.lo, max := values.hi, width }
    | _ => none

end RangeStates

/-- Integer ranges, in the order of the names. -/
structure RangeInference where
  ranges : List IntegerRange
  /-- How many scalars were given up each time that the rounds did not settle. -/
  givenUp : List Nat

/-- Infers integer ranges with at most `limit` rounds before scalars are given up. -/
def inferIntegerRanges (g : Graph) (t : SymbolTable) (limit : Nat) : RangeInference :=
  let reachable := g.nodes.toList.filter fun n => g.isReachable n.id
  let stores := reachable.flatMap fun n => n.command?.elim [] Command.stores
  let start := RangeStates.start t stores
  let (states, givenUp) := RangeStates.settle stores limit (start.roundBound limit) 0 start
  { ranges := states.ranges, givenUp }

end LineBasic
