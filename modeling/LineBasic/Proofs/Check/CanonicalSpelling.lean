import LineBasic.Check.References
import LineBasic.Check.Subroutines
import LineBasic.Check.Switches
import LineBasic.Proofs.Graph.CanonicalSpelling
import LineBasic.Proofs.Symbol.CanonicalSpelling

/-!
# Checks in the canonical spelling

Errors, warnings and required switches are the same for a program in the canonical spelling.
-/

namespace LineBasic

/-! ## References -/

theorem Statement.lineReferences_canonically (s : Statement) :
    s.canonically.lineReferences = s.lineReferences := by
  have harm (arm : Arm) : arm.canonically.lineReference? = arm.lineReference? := by
    cases arm <;> rfl
  cases s with
  | command _ body => cases body <;> rfl
  | conditional _ _ onTrue onFalse =>
    cases onFalse <;>
      simp only [canonically, lineReferences, harm, Option.bind_some, Option.bind_none]

theorem Command.unsupported?_canonically (c : Command) :
    c.canonically.unsupported? = c.unsupported? := by
  cases c <;> rfl

theorem SymbolTable.callFault?_canonically (t : SymbolTable) (e : Expr Float) :
    t.canonically.callFault? e.canonically = t.callFault? e := by
  cases e with
  | call name args =>
    simp only [Expr.canonically, callFault?, Name.key_key, t.getElem?_functions_canonically,
      Expr.canonicallyList_eq_map, List.length_map]
    cases t.functions[name.key]? <;> rfl
  | _ => rfl

theorem SymbolTable.referenceErrors_canonically (t : SymbolTable) (p : Program) (s : Statement) :
    t.canonically.referenceErrors p.canonically s.canonically = t.referenceErrors p s := by
  have hunsupported : s.canonically.command?.bind Command.unsupported? =
      s.command?.bind Command.unsupported? := by
    rw [s.command?_canonically, Option.bind_map]
    exact congrArg s.command?.bind (funext Command.unsupported?_canonically)
  have hcalls : (Expr.subtermsOfList s.canonically.roots).filterMap t.canonically.callFault? =
      (Expr.subtermsOfList s.roots).filterMap t.callFault? := by
    rw [s.roots_canonically, ← Expr.canonicallyList_eq_map, Expr.subtermsOfList_canonicallyList,
      List.filterMap_map]
    exact congrArg (List.filterMap · _) (funext t.callFault?_canonically)
  simp only [referenceErrors, s.lineReferences_canonically, p.isSome_line?_canonically,
    hunsupported, hcalls, s.line_canonically]

theorem Program.referenceErrors_canonically (p : Program) (t : SymbolTable) :
    p.canonically.referenceErrors t.canonically = p.referenceErrors t := by
  simp only [referenceErrors, p.allStatements_canonically, List.flatMap_map,
    t.referenceErrors_canonically]

/-! ## Structure -/

section

variable (g : Graph)

theorem Graph.structureErrors_canonically : g.canonically.structureErrors = g.structureErrors := by
  have herror : StructureIssue.toError? g.canonically = StructureIssue.toError? g := by
    funext issue
    cases issue <;> simp only [StructureIssue.toError?, g.lineOf_canonically]
  rw [structureErrors, herror]
  rfl

theorem Graph.structureWarnings_canonically :
    g.canonically.structureWarnings = g.structureWarnings := by
  have hwarning : StructureIssue.toWarning? g.canonically = StructureIssue.toWarning? g := by
    funext issue
    cases issue <;> simp only [StructureIssue.toWarning?, g.lineOf_canonically]
  rw [structureWarnings, hwarning]
  rfl

theorem Statement.isExecutable_canonically (s : Statement) :
    s.canonically.isExecutable = s.isExecutable := by
  cases s with
  | command _ body => cases body <;> rfl
  | conditional _ _ _ onFalse => cases onFalse <;> rfl

theorem Graph.isDeadLine_canonically (l : ProgramLine) :
    g.canonically.isDeadLine l.canonically = g.isDeadLine l := by
  simp only [isDeadLine, ProgramLine.canonically, canonicalStatements_eq_map, List.any_map,
    Function.comp_def, Statement.isExecutable_canonically]
  rfl

theorem Graph.deadRuns_canonically (current : Option (Nat × Nat)) (lines : List ProgramLine) :
    g.canonically.deadRuns current (lines.map ProgramLine.canonically) =
      g.deadRuns current lines := by
  induction lines generalizing current with
  | nil => rfl
  | cons l rest ih =>
    simp only [List.map_cons, deadRuns, g.isDeadLine_canonically, ih]
    rfl

theorem Program.unreachableWarnings_canonically (p : Program) :
    p.canonically.unreachableWarnings g.canonically = p.unreachableWarnings g := by
  rw [unreachableWarnings, canonically, g.deadRuns_canonically, unreachableWarnings]

/-! ## Subroutines -/

theorem Graph.localSuccessors_canonically (n : Node) :
    localSuccessors n.canonically = localSuccessors n := by
  rw [localSuccessors, n.command?_canonically, localSuccessors]
  cases n.command? with
  | none => rfl
  | some c => cases c <;> rfl

theorem Graph.callsAt_canonically (n : Node) :
    g.canonically.callsAt n.canonically = g.callsAt n := by
  simp only [callsAt, g.lineOf_canonically]
  rfl

theorem Graph.callsFromQueue_canonically (n : Nat) (queue : List NodeId)
    (seen : Std.ExtTreeSet NodeId) :
    g.canonically.callsFromQueue n queue seen = g.callsFromQueue n queue seen := by
  induction n generalizing queue seen with
  | zero => rfl
  | succ n ih =>
    cases queue with
    | nil => rfl
    | cons id queue =>
      simp only [callsFromQueue, g.node?_canonically, ih]
      cases g.node? id with
      | none => rfl
      | some node =>
        simp only [Option.map, g.callsAt_canonically, localSuccessors_canonically]

theorem Graph.callsFrom_canonically (start : NodeId) :
    g.canonically.callsFrom start = g.callsFrom start := by
  have hbound : g.canonically.callsBound = g.callsBound := by
    rw [callsBound, g.toList_nodes_canonically, List.flatMap_map]
    rfl
  rw [callsFrom, hbound, g.callsFromQueue_canonically, callsFrom]

theorem CallSearch.depth_canonically (n line : Nat) (s : CallSearch) :
    depth g.canonically n line s = depth g n line s := by
  induction n generalizing line s with
  | zero => rfl
  | succ n ih =>
    simp only [depth, g.callsFrom_canonically, ih]
    rfl

theorem CallSearch.overCalls_canonically (calls : List CallSite) (deepest : Option (Nat × CallSite))
    (s : CallSearch) : overCalls g.canonically calls deepest s = overCalls g calls deepest s := by
  induction calls generalizing deepest s with
  | nil => rfl
  | cons call rest ih =>
    simp only [overCalls, depth_canonically, ih]
    rfl

theorem CallNesting.ofGraph_canonically : ofGraph g.canonically = ofGraph g := by
  rw [ofGraph, g.callsFrom_canonically, CallSearch.overCalls_canonically, ofGraph]

end

/-! ## Switches -/

theorem Program.requiredSwitches_canonically (p : Program) :
    p.canonically.requiredSwitches = p.requiredSwitches := by
  have hswitch (c : Command) : c.canonically.switch? = c.switch? := by cases c <;> rfl
  have hneed (switch : Switch) : p.canonically.firstNeed? switch =
      (p.firstNeed? switch).map Statement.canonically := by
    rw [firstNeed?, p.allStatements_canonically, List.find?_map, firstNeed?]
    congr 2
    funext s
    rw [Function.comp_apply, s.command?_canonically, Option.bind_map]
    exact congrArg (fun need => s.command?.bind need == some switch) (funext hswitch)
  simp only [requiredSwitches, hneed, Option.map_map, Function.comp_def,
    Statement.line_canonically]

end LineBasic
