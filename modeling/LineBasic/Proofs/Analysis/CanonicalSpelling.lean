import LineBasic.Analysis.Program
import LineBasic.Proofs.Check.CanonicalSpelling
import LineBasic.Proofs.Loop.CanonicalSpelling
import LineBasic.Proofs.Range.CanonicalSpelling

/-!
# The analysis does not depend on the spelling

Two programs that differ only in the spelling of names and numbers have the same graph but for the
statements at its nodes, their statements read and write the same variables, and their analyses
agree (`Program.analysedAlike_of_respells`): errors up to the text of bounds, warnings, the symbol
table up to the spelling that it keeps, and findings up to the text of folded expressions.
-/

namespace LineBasic

/-! ## Passes -/

theorem SymbolTable.withRanges_canonically (t : SymbolTable) (ranges : List IntegerRange) :
    t.canonically.withRanges ranges = (t.withRanges ranges).canonically := by
  have hmodified (scalars : Std.ExtTreeMap String ScalarInfo) :
      ranges.foldl (fun m r => m.modify r.name fun info => { info with integerRange := some r })
        (scalars.map fun _ info => info.canonically) =
      (ranges.foldl (fun m r => m.modify r.name fun info => { info with integerRange := some r })
        scalars).map fun _ info => info.canonically := by
    refine List.foldl_hom (Std.ExtTreeMap.map fun _ info => ScalarInfo.canonically info) ?_
    intro m r
    refine (map_modify m r.name ?_).symm
    exact fun info => rfl
  simp only [withRanges, canonically, hmodified]

theorem Journal.noteSolution_canonically {φ : Type} (a : ForwardAnalysis φ) (g : Graph)
    (s : Solution φ) (j : Journal) :
    j.noteSolution a g.canonically s = j.noteSolution a g s := by
  simp only [noteSolution, g.size_canonically]

theorem Journal.noteReductions_canonically (p : Program) (boolean : Bool) :
    noteReductions p.canonically boolean = noteReductions p boolean := by
  funext j
  simp only [noteReductions, noteEach, p.roots_canonically, List.foldl_map, Prod.map,
    Expr.reduce_canonically, Expr.reportedCanonically, id]

/-- What a pass contributes, without typed text. -/
def Contribution.withoutText : Contribution → Contribution
  | folded found => folded (found.map FoldedExpression.withoutText)
  | c => c

theorem Contribution.count_withoutText (c : Contribution) : c.withoutText.count = c.count := by
  cases c with
  | folded found => exact List.length_map _
  | _ => rfl

theorem Contribution.statistics_withoutText (c : Contribution) :
    c.withoutText.statistics = c.statistics := by
  cases c <;> rfl

/-- The findings without the typed text of folded expressions. -/
def Findings.withoutText (f : Findings) : Findings :=
  { f with folded := f.folded.map FoldedExpression.withoutText }

namespace AnalysisInput

/-- The input with its statements, its table and its graph in the canonical spelling. -/
def canonically (input : AnalysisInput) : AnalysisInput :=
  { input with
    program := input.program.canonically
    table := input.table.canonically
    graph := input.graph.canonically
    effects := input.effects.map Effects.canonically }

theorem ofProgram_canonically (config : AnalysisConfig) (table : SymbolTable) (p : Program) :
    ofProgram config table.canonically p.canonically = (ofProgram config table p).canonically := by
  simp only [ofProgram, Graph.build_canonically, Graph.effects_canonically]
  rfl

theorem checks_canonically (input : AnalysisInput) (nesting : CallNesting) :
    input.canonically.checks nesting = input.checks nesting := by
  simp only [checks, canonically, Program.referenceErrors_canonically,
    Graph.structureErrors_canonically, Graph.structureWarnings_canonically,
    Program.unreachableWarnings_canonically, Program.requiredSwitches_canonically]

theorem contribution_canonically (input : AnalysisInput) (pass : Pass) :
    (input.canonically.contribution pass).1.withoutText =
        (input.contribution pass).1.withoutText ∧
      (input.canonically.contribution pass).2 = (input.contribution pass).2 := by
  cases pass with
  | validation =>
    simp only [contribution, checks_canonically]
    simp only [canonically, CallNesting.ofGraph_canonically, and_self]
  | constantFolding =>
    exact ⟨congrArg Contribution.folded input.program.foldedExpressions_canonically, rfl⟩
  | strengthReduction =>
    simp only [contribution, canonically, Program.reductions_canonically,
      Journal.noteReductions_canonically, and_self]
  | commonSubexpressions =>
    simp only [contribution, canonically, CandidateTable.build_canonically,
      ForwardAnalysis.solve_canonically, CommonSubexpression.ofSolution_canonically,
      Journal.noteSolution_canonically, and_self]
  | forwardSubstitution =>
    simp only [contribution, canonically, reachingDefinitions_canonically,
      ForwardAnalysis.solve_canonically, Substitution.ofSolution_canonically,
      Journal.noteSolution_canonically, and_self]
  | uninitializedVariables =>
    simp only [contribution, canonically, definiteAssignment_canonically,
      ForwardAnalysis.solve_canonically, UninitializedUse.ofSolution_canonically,
      Journal.noteSolution_canonically, and_self]
  | loopAnalysis =>
    simp only [contribution, canonically, definiteAssignment_canonically,
      constantAssignments_canonically, LoopContext.ofGraph_canonically,
      LoopContext.summaries_canonically, Journal.noteSolution_canonically]
    exact ⟨trivial, rfl⟩
  | integerRange =>
    simp only [contribution, canonically, inferIntegerRanges_canonically, and_self]
  | valueRange =>
    simp only [contribution, canonically, Program.conditionRanges_canonically, and_self]

end AnalysisInput

/-! ## Running passes -/

theorem PassResult.ofContribution_withoutText (pass : Pass) (c : Contribution) :
    ofContribution pass c.withoutText = ofContribution pass c := by
  rw [ofContribution, c.count_withoutText, c.statistics_withoutText, ofContribution]

/-- The second record is the first one in the canonical spelling. -/
structure AnalysisRecord.Spells (r r' : AnalysisRecord) : Prop where
  table : r'.table = r.table.canonically
  errors : r'.errors = r.errors
  warnings : r'.warnings = r.warnings
  findings : r'.findings.withoutText = r.findings.withoutText
  journal : r'.journal = r.journal

namespace AnalysisRecord

variable {r r' : AnalysisRecord}

theorem Spells.add_folded (h : r.Spells r') {found found' : List FoldedExpression}
    (hfound : found'.map FoldedExpression.withoutText =
      found.map FoldedExpression.withoutText) :
    (r.add (.folded found)).Spells (r'.add (.folded found')) :=
  { h with
    findings := by
      simp only [AnalysisRecord.add, Findings.withoutText, List.map_append, hfound]
      exact congrArg (fun f : Findings => { f with
        folded := f.folded ++ found.map FoldedExpression.withoutText }) h.findings }

theorem Spells.add_same (h : r.Spells r') (c : Contribution) : (r.add c).Spells (r'.add c) := by
  cases c with
  | checks errors warnings switches =>
    exact { h with
      errors := congrArg (· ++ errors) h.errors
      warnings := congrArg (· ++ warnings) h.warnings
      findings := congrArg (fun f : Findings => { f with switches }) h.findings }
  | folded found => exact h.add_folded rfl
  | reductions found =>
    exact { h with
      findings := congrArg (fun f : Findings => { f with reductions := f.reductions ++ found })
        h.findings }
  | commonSubexpressions found =>
    exact { h with
      findings := congrArg (fun f : Findings => { f with commonSubexpressions := found })
        h.findings }
  | substitutions found =>
    exact { h with
      findings := congrArg (fun f : Findings => { f with substitutions := found }) h.findings }
  | uninitialized found =>
    exact { h with
      findings := congrArg (fun f : Findings => { f with uninitialized := found }) h.findings }
  | loops found =>
    exact { h with
      findings := congrArg (fun f : Findings => { f with loops := found }) h.findings }
  | integerRanges found =>
    exact { h with
      table := by
        simp only [AnalysisRecord.add, h.table, SymbolTable.withRanges_canonically]
      findings := congrArg (fun f : Findings => { f with integerRanges := found }) h.findings }
  | conditionRanges found =>
    exact { h with
      findings := congrArg (fun f : Findings => { f with conditionRanges := found }) h.findings }

theorem Spells.add (h : r.Spells r') {c c' : Contribution} (hc : c'.withoutText = c.withoutText) :
    (r.add c).Spells (r'.add c') := by
  cases c with
  | folded found =>
    cases c' with
    | folded found' => exact h.add_folded (Contribution.folded.inj hc)
    | _ => cases hc
  | _ =>
    cases c' with
    | folded => cases hc
    | _ => cases hc <;> exact h.add_same _

theorem Spells.perform (h : r.Spells r') (input : AnalysisInput) (pass : Pass) :
    (r.perform input pass).1.Spells (r'.perform input.canonically pass).1 ∧
      (r'.perform input.canonically pass).2 = (r.perform input pass).2 := by
  obtain ⟨hfound, hremarks⟩ := { input with table := r.table }.contribution_canonically pass
  have hinput : { input.canonically with table := r'.table } =
      { input with table := r.table }.canonically := by
    rw [h.table]
    rfl
  rw [← hinput] at hfound hremarks
  have hcount := congrArg Contribution.count hfound
  have hresult := congrArg (PassResult.ofContribution pass) hfound
  simp only [Contribution.count_withoutText, PassResult.ofContribution_withoutText]
    at hcount hresult
  by_cases henabled : pass.isEnabled input.config
  · have henabled' : pass.isEnabled input.canonically.config := henabled
    simp only [AnalysisRecord.perform, if_pos henabled, if_pos henabled', hremarks, hcount, hresult,
      h.journal, and_true]
    exact { h.add hfound with journal := rfl }
  · have henabled' : ¬ pass.isEnabled input.canonically.config := henabled
    simp only [AnalysisRecord.perform, if_neg henabled, if_neg henabled', h.journal, and_true]
    exact { h with journal := rfl }

theorem Spells.performAll (h : r.Spells r') (input : AnalysisInput) (passes : List Pass) :
    (r.performAll input passes).1.Spells (r'.performAll input.canonically passes).1 ∧
      (r'.performAll input.canonically passes).2 = (r.performAll input passes).2 := by
  rw [AnalysisRecord.performAll, AnalysisRecord.performAll]
  generalize PassResult.empty = total
  induction passes generalizing r r' total with
  | nil => exact ⟨h, rfl⟩
  | cons pass rest ih =>
    obtain ⟨hrecord, hresult⟩ := h.perform input pass
    simp only [List.foldl_cons, hresult]
    exact ih hrecord (total.combine (r.perform input pass).2)

end AnalysisRecord

/-! ## The analysis -/

/-- The second analysis is the first one of the same program in the canonical spelling. -/
structure ProgramAnalysis.Spells (a a' : ProgramAnalysis) : Prop where
  errors : a'.errors.map SemanticError.withoutExtent = a.errors.map SemanticError.withoutExtent
  warnings : a'.warnings = a.warnings
  table : a'.table = a.table.canonically
  findings : a'.findings.withoutText = a.findings.withoutText
  result : a'.result = a.result
  journal : a'.journal = a.journal

/-- The analysis that rests on a symbol table and on what the passes have found. -/
def ProgramAnalysis.ofRecord (symbols : SymbolBuild) (record : AnalysisRecord)
    (result : PassResult) : ProgramAnalysis :=
  let errors := symbols.errors ++ record.errors
  let warnings := symbols.warnings ++ record.warnings
  let warningCount := warnings.length + record.findings.uninitialized.length
  { errors, warnings, table := record.table, findings := record.findings, result
    journal := record.journal.note .info .analyzer
      s!"analysis finished: {errors.length} errors, {warningCount} warnings" }

theorem AnalysisRecord.Spells.ofRecord {r r' : AnalysisRecord} (h : r.Spells r')
    {symbols symbols' : SymbolBuild}
    (herrors : symbols'.errors.map SemanticError.withoutExtent =
      symbols.errors.map SemanticError.withoutExtent)
    (hwarnings : symbols'.warnings = symbols.warnings) (result : PassResult) :
    (ProgramAnalysis.ofRecord symbols r result).Spells (.ofRecord symbols' r' result) := by
  have hall : (symbols'.errors ++ r.errors).map SemanticError.withoutExtent =
      (symbols.errors ++ r.errors).map SemanticError.withoutExtent := by
    rw [List.map_append, herrors, List.map_append]
  have hcount := congrArg List.length hall
  have huninitialized : r'.findings.withoutText.uninitialized =
      r.findings.withoutText.uninitialized := congrArg Findings.uninitialized h.findings
  simp only [Findings.withoutText] at huninitialized
  simp only [List.length_map] at hcount
  refine ⟨?_, ?_, h.table, h.findings, rfl, ?_⟩
  · simp only [ProgramAnalysis.ofRecord, h.errors, hall]
  · simp only [ProgramAnalysis.ofRecord, h.warnings, hwarnings]
  · simp only [ProgramAnalysis.ofRecord, h.errors, h.warnings, h.journal, hwarnings, hcount,
      huninitialized]

theorem Journal.noteSymbols_canonically (t : SymbolTable) (j : Journal) :
    j.noteSymbols t.canonically = j.noteSymbols t := by
  simp only [noteSymbols, SymbolTable.canonically, Std.ExtTreeMap.size_map]

theorem Journal.noteGraph_canonically (g : Graph) (j : Journal) :
    j.noteGraph g.canonically = j.noteGraph g := by
  simp only [noteGraph, g.size_canonically]
  rfl

/-- The analysis is read off the record of its passes. -/
theorem Program.analyze_eq (p : Program) (config : AnalysisConfig) (journal : Journal) :
    let symbols := SymbolTable.build p
    let input := AnalysisInput.ofProgram config symbols.table p
    let performed := (AnalysisRecord.start symbols.table
      ((journal.noteSymbols symbols.table).noteGraph input.graph)).performAll input Pass.standard
    p.analyze config journal = .ofRecord symbols performed.1 performed.2 := rfl

/-- The analysis of the canonical spelling. -/
theorem Program.analyze_canonically (p : Program) (config : AnalysisConfig) (journal : Journal) :
    (p.analyze config journal).Spells (p.canonically.analyze config journal) := by
  let input := AnalysisInput.ofProgram config (SymbolTable.build p).table p
  let remarks := (journal.noteSymbols (SymbolTable.build p).table).noteGraph input.graph
  have hinput : AnalysisInput.ofProgram config (SymbolTable.build p.canonically).table
      p.canonically = input.canonically := by
    rw [SymbolTable.table_build_canonically, AnalysisInput.ofProgram_canonically]
  have hremarks : (journal.noteSymbols (SymbolTable.build p.canonically).table).noteGraph
      input.canonically.graph = remarks := by
    rw [SymbolTable.table_build_canonically, Journal.noteSymbols_canonically]
    exact Journal.noteGraph_canonically ..
  have hstart : (AnalysisRecord.start (SymbolTable.build p).table remarks).Spells
      (.start (SymbolTable.build p.canonically).table remarks) :=
    ⟨SymbolTable.table_build_canonically p, rfl, rfl, rfl, rfl⟩
  obtain ⟨hrecord, hresult⟩ := hstart.performAll input Pass.standard
  rw [analyze_eq, analyze_eq, hinput, hremarks, hresult]
  exact hrecord.ofRecord (SymbolTable.errors_build_canonically p)
    (SymbolTable.warnings_build_canonically p) _

/-! ## Two spellings -/

/-- What is found out about the two programs is the same up to their spelling. -/
structure Program.AnalysedAlike (p q : Program) (config : AnalysisConfig) (journal : Journal) :
    Prop where
  /-- The graphs are the same but for the spelling of the statements at their nodes. -/
  graph : (Graph.build p).canonically = (Graph.build q).canonically
  /-- The nodes have the same edges, of the same kinds and in the same order. -/
  successors : ∀ id, (Graph.build p).successors id = (Graph.build q).successors id
  issues : (Graph.build p).issues = (Graph.build q).issues
  uses : ((Graph.build p).effects (SymbolTable.build p).table).map Effects.uses =
    ((Graph.build q).effects (SymbolTable.build q).table).map Effects.uses
  defs : ((Graph.build p).effects (SymbolTable.build p).table).map Effects.defs =
    ((Graph.build q).effects (SymbolTable.build q).table).map Effects.defs
  arrayDefs : ((Graph.build p).effects (SymbolTable.build p).table).map Effects.arrayDefs =
    ((Graph.build q).effects (SymbolTable.build q).table).map Effects.arrayDefs
  /-- The errors are the same but for the text of a bound. -/
  errors : (p.analyze config journal).errors.map SemanticError.withoutExtent =
    (q.analyze config journal).errors.map SemanticError.withoutExtent
  codes : (p.analyze config journal).errors.map (fun e => (e.code, e.line)) =
    (q.analyze config journal).errors.map fun e => (e.code, e.line)
  warnings : (p.analyze config journal).warnings = (q.analyze config journal).warnings
  table : (p.analyze config journal).table.canonically =
    (q.analyze config journal).table.canonically
  findings : (p.analyze config journal).findings.withoutText =
    (q.analyze config journal).findings.withoutText
  result : (p.analyze config journal).result = (q.analyze config journal).result
  journal : (p.analyze config journal).journal = (q.analyze config journal).journal

theorem codes_eq_of_withoutExtent {errors errors' : List SemanticError}
    (h : errors.map SemanticError.withoutExtent = errors'.map SemanticError.withoutExtent) :
    errors.map (fun e => (e.code, e.line)) = errors'.map fun e => (e.code, e.line) := by
  have hcode (e : SemanticError) : (e.withoutExtent.code, e.withoutExtent.line) =
      (e.code, e.line) := by
    simp only [SemanticError.code, SemanticError.withoutExtent, ErrorCause.code_withoutExtent]
  have hcodes := congrArg (List.map fun e => (e.code, e.line)) h
  simpa only [List.map_map, Function.comp_def, hcode] using hcodes

/-- The spelling of names and numbers makes no difference to the analysis. -/
theorem Program.analysedAlike_of_respells {p q : Program} (h : p.Respells q)
    (config : AnalysisConfig) (journal : Journal) : p.AnalysedAlike q config journal := by
  have hsame : p.canonically = q.canonically := h
  have hgraph : (Graph.build p).canonically = (Graph.build q).canonically := by
    rw [← Graph.build_canonically, hsame, Graph.build_canonically]
  have heffects : ((Graph.build p).effects (SymbolTable.build p).table).map Effects.canonically =
      ((Graph.build q).effects (SymbolTable.build q).table).map Effects.canonically := by
    rw [← Graph.effects_canonically, ← Graph.effects_canonically, hgraph,
      ← SymbolTable.table_build_canonically, hsame, SymbolTable.table_build_canonically]
  have hview {α : Type} (view : Effects → α) (hsame : ∀ fx, view fx.canonically = view fx) :
      ((Graph.build p).effects (SymbolTable.build p).table).map view =
        ((Graph.build q).effects (SymbolTable.build q).table).map view := by
    have hviews := congrArg (Array.map view) heffects
    simpa only [Array.map_map, Function.comp_def, hsame] using hviews
  have hp := p.analyze_canonically config journal
  have hq := q.analyze_canonically config journal
  rw [← hsame] at hq
  have herrors := hp.errors.symm.trans hq.errors
  exact {
    graph := hgraph
    successors := fun id => by
      rw [← Graph.successors_canonically, hgraph, Graph.successors_canonically]
    issues := show (Graph.build p).canonically.issues = (Graph.build q).canonically.issues from
      congrArg Graph.issues hgraph
    uses := hview Effects.uses fun _ => rfl
    defs := hview Effects.defs fun _ => rfl
    arrayDefs := hview Effects.arrayDefs fun _ => rfl
    errors := herrors
    codes := codes_eq_of_withoutExtent herrors
    warnings := hp.warnings.symm.trans hq.warnings
    table := hp.table.symm.trans hq.table
    findings := hp.findings.symm.trans hq.findings
    result := hp.result.symm.trans hq.result
    journal := hp.journal.symm.trans hq.journal }

/-- The bound of an array rests on a scalar of the same name that is read in. -/
def boundProgram (name text : String) : Program where
  lines := [{
    number := 10
    statements := [
      .command ⟨10, 4⟩ (.read [.scalar ⟨name⟩]),
      .command ⟨10, 17⟩
        (.dim [⟨⟨name⟩, [.binary .add (.scalar ⟨name⟩) (.number 2.5 text)]⟩])]
    sourceLine := 1 }]

theorem boundProgram_respells {name name' : String} (h : (Name.mk name).key = (Name.mk name').key)
    (text text' : String) : (boundProgram name text).Respells (boundProgram name' text') := by
  simp only [Program.Respells, boundProgram, Program.canonically, ProgramLine.canonically,
    canonicalStatements, Statement.canonically, Command.canonically, ArrayDecl.canonically,
    Target.canonically, Expr.canonically, List.map, h]

/-- The error in the `DIM` statement quotes `Total + 2.50` in the one program and `TOTAL + 2.5` in
the other one. -/
theorem analysedAlike_boundProgram :
    (boundProgram "Total" "2.50").Respells (boundProgram "TOTAL" "2.5") ∧
      (boundProgram "Total" "2.50").AnalysedAlike (boundProgram "TOTAL" "2.5") {} .empty := by
  have hkey : (Name.mk "Total").key = (Name.mk "TOTAL").key := by
    apply String.toList_injective
    rw [Name.key, Name.key, Text.upper, Text.upper, String.toList_map, String.toList_map]
    decide
  have hspelled := boundProgram_respells hkey "2.50" "2.5"
  exact And.intro hspelled (Program.analysedAlike_of_respells hspelled {} Journal.empty)

end LineBasic
