import LineBasic.CommandLine.Run
import LineBasic.Proofs.Analysis.Independence

/-!
# The verdict on a program

The errors of a program are those of its symbol table and those of the validation, which has no
switch (`Program.errors_and_warnings_analyze`); everything else that is found is a warning. So the
verdict on a text is the same under every configuration, and with it the exit code of every task that
analyses the text. Together with the independence of the passes this is `passes_independent`.
-/

namespace LineBasic

/-! ## Errors and warnings of a program -/

variable {w : Diagnostic}

theorem Graph.isError_of_mem_structureWarnings {g : Graph} (h : w ∈ g.structureWarnings) :
    w.isError = false := by
  obtain ⟨issue, -, hissue⟩ := List.mem_filterMap.1 h
  cases issue <;> cases hissue <;> rfl

theorem CallNesting.isError_of_mem_warnings {c : CallNesting} {limit : Nat}
    (h : w ∈ c.warnings limit) : w.isError = false := by
  rcases List.mem_append.1 h with h | h
  · obtain ⟨call, -, rfl⟩ := List.mem_map.1 h
    rfl
  · obtain ⟨deepest, -, rfl⟩ := Option.map_eq_some_iff.1 (Option.mem_toList.1 h)
    rfl

theorem Program.isError_of_mem_unreachableWarnings {p : Program} {g : Graph}
    (h : w ∈ p.unreachableWarnings g) : w.isError = false := by
  obtain ⟨run, -, rfl⟩ := List.mem_map.1 h
  rfl

theorem SymbolTable.isError_of_mem_warnings_build {p : Program}
    (h : w ∈ (SymbolTable.build p).warnings) : w.isError = false := by
  obtain ⟨array, -, harray⟩ := List.mem_filterMap.1 h
  rw [SymbolSweep.layoutWarning?, Option.ite_none_left_eq_some] at harray
  obtain ⟨-, rfl⟩ := harray.imp id Option.some.inj
  rfl

namespace Program

variable (p : Program) (config : AnalysisConfig) (journal : Journal)

/-- The errors of the validation, ordered by line. -/
def checkErrors : List SemanticError :=
  (p.referenceErrors (SymbolTable.build p).table ++ (Graph.build p).structureErrors).mergeSort
    fun a b => (compare a.line b.line).isLE

/-- The warnings of the validation. -/
def checkWarnings : List Diagnostic :=
  (Graph.build p).structureWarnings ++
    (CallNesting.ofGraph (Graph.build p)).warnings config.maxCallDepth ++
    p.unreachableWarnings (Graph.build p)

/-- What the record has of the validation after all passes. -/
theorem foundBy_validation_standard (table : SymbolTable) :
    ((AnalysisRecord.start table journal).performAll (.ofProgram config table p)
      Pass.standard).1.foundBy .validation =
      (AnalysisInput.ofProgram config table p).checks (CallNesting.ofGraph (Graph.build p)) :=
  (AnalysisRecord.gains_gain (.ofProgram config table p) journal rfl).kept

/-- The errors and warnings are those of the symbol table and those of the validation. -/
theorem errors_and_warnings_analyze :
    (p.analyze config journal).errors = (SymbolTable.build p).errors ++ p.checkErrors ∧
      (p.analyze config journal).warnings =
        (SymbolTable.build p).warnings ++ p.checkWarnings config := by
  obtain ⟨herrors, hwarnings, -⟩ := Contribution.checks.inj (p.foundBy_validation_standard config
    ((journal.noteSymbols (SymbolTable.build p).table).noteGraph (Graph.build p))
    (SymbolTable.build p).table)
  exact ⟨congrArg ((SymbolTable.build p).errors ++ ·) herrors,
    congrArg ((SymbolTable.build p).warnings ++ ·) hwarnings⟩

theorem isError_of_mem_warnings_analyze
    (h : w ∈ (p.analyze config journal).warnings) : w.isError = false := by
  rw [(p.errors_and_warnings_analyze config journal).2, checkWarnings] at h
  simp only [List.mem_append] at h
  rcases h with h | (h | h) | h
  · exact SymbolTable.isError_of_mem_warnings_build h
  · exact Graph.isError_of_mem_structureWarnings h
  · exact CallNesting.isError_of_mem_warnings h
  · exact isError_of_mem_unreachableWarnings h

end Program

theorem ProgramAnalysis.filter_isError_diagnostics {a : ProgramAnalysis}
    (h : ∀ w ∈ a.warnings, w.isError = false) :
    (a.diagnostics.filter Diagnostic.isError).Perm (a.errors.map SemanticError.toDiagnostic) := by
  have herrors : (a.errors.map SemanticError.toDiagnostic).filter Diagnostic.isError =
      a.errors.map SemanticError.toDiagnostic := by
    refine List.filter_eq_self.2 fun d hd => ?_
    obtain ⟨e, -, rfl⟩ := List.mem_map.1 hd
    rfl
  have hwarnings : a.warnings.filter Diagnostic.isError = [] :=
    List.filter_eq_nil_iff.2 fun w hw => by simp [h w hw]
  have huses : (a.findings.uninitialized.map UninitializedUse.toDiagnostic).filter
      Diagnostic.isError = [] := by
    refine List.filter_eq_nil_iff.2 fun d hd => ?_
    obtain ⟨u, -, rfl⟩ := List.mem_map.1 hd
    exact Bool.false_ne_true
  unfold diagnostics Diagnostic.sort
  refine ((List.mergeSort_perm _ _).filter _).trans ?_
  rw [List.filter_append, List.filter_append, herrors, hwarnings, huses, List.append_nil,
    List.append_nil]

/-! ## The verdict on a text -/

/-- A text is not refused without a reason. -/
theorem Program.ne_nil_of_parse_eq_error {source : String} {faults : List LineFault}
    (h : Program.parse source = .error faults) : faults ≠ [] := by
  unfold Program.parse at h
  dsimp only at h
  split at h
  · cases h
  · next hempty =>
    obtain rfl := Except.error.inj h
    exact fun hnil => hempty (List.isEmpty_iff.2 hnil)

namespace SourceAnalysis

/-- The text was read, and its program is accepted. -/
def isAccepted (a : SourceAnalysis) : Bool := a.analysis.any ProgramAnalysis.isAccepted

/-- Two analyses agree in the errors and in what follows from them. -/
structure SameVerdict (a a' : SourceAnalysis) : Prop where
  /-- The errors of a program, if the text was read as one. -/
  errors : a.analysis.map ProgramAnalysis.errors = a'.analysis.map ProgramAnalysis.errors
  /-- A text that was not read is not analysed any further. -/
  unread : a.analysis = none → a = a'
  errorCount : a.errorCount = a'.errorCount
  hasErrors : a.hasErrors = a'.hasErrors
  isAccepted : a.isAccepted = a'.isAccepted

theorem hasErrors_eq (a : SourceAnalysis) : a.hasErrors = decide (0 < a.errorCount) := by
  rw [Bool.eq_iff_iff, decide_eq_true_iff, hasErrors, Diagnostic.hasErrors, errorCount,
    List.length_pos_iff, Ne, List.filter_eq_nil_iff, List.any_eq_true]
  simp

end SourceAnalysis

namespace SourceFile

variable {file : SourceFile} {config config' : AnalysisConfig}

theorem analysis_of_parse_ok {p : Program} (hparse : Program.parse file.content = .ok p)
    (config : AnalysisConfig) :
    ∃ journal, (file.analyze config).analysis = some (p.analyze config journal) ∧
      (file.analyze config).diagnostics = (p.analyze config journal).diagnostics := by
  unfold analyze ParsedSource.analyze parsed
  rw [hparse]
  exact ⟨_, rfl, rfl⟩

theorem analyze_of_parse_error {faults : List LineFault}
    (hparse : Program.parse file.content = .error faults) (config : AnalysisConfig) :
    (file.analyze config).analysis = none ∧
      (file.analyze config).diagnostics = faults.map LineFault.toDiagnostic ∧
      ∀ config', file.analyze config = file.analyze config' := by
  unfold analyze ParsedSource.analyze parsed
  rw [hparse]
  exact ⟨rfl, rfl, fun _ => rfl⟩

theorem errorCount_of_parse_ok {p : Program} (hparse : Program.parse file.content = .ok p)
    (config : AnalysisConfig) :
    (file.analyze config).errorCount = ((SymbolTable.build p).errors ++ p.checkErrors).length := by
  obtain ⟨journal, -, hdiagnostics⟩ := analysis_of_parse_ok hparse config
  have hperm := ProgramAnalysis.filter_isError_diagnostics fun w =>
    p.isError_of_mem_warnings_analyze config journal (w := w)
  rw [SourceAnalysis.errorCount, hdiagnostics, hperm.length_eq, List.length_map,
    (p.errors_and_warnings_analyze config journal).1]

/-- A text without errors is accepted, and none other. -/
theorem isAccepted_analyze (file : SourceFile) (config : AnalysisConfig) :
    (file.analyze config).isAccepted = !(file.analyze config).hasErrors := by
  cases hparse : Program.parse file.content with
  | ok p =>
    obtain ⟨journal, hanalysis, -⟩ := analysis_of_parse_ok hparse config
    rw [SourceAnalysis.hasErrors_eq, errorCount_of_parse_ok hparse, SourceAnalysis.isAccepted,
      hanalysis, Option.any_some, ProgramAnalysis.isAccepted,
      (p.errors_and_warnings_analyze config journal).1]
    cases (SymbolTable.build p).errors ++ p.checkErrors <;> rfl
  | error faults =>
    obtain ⟨hanalysis, hdiagnostics, -⟩ := analyze_of_parse_error hparse config
    obtain ⟨fault, rest, rfl⟩ :=
      List.exists_cons_of_ne_nil (Program.ne_nil_of_parse_eq_error hparse)
    rw [SourceAnalysis.isAccepted, hanalysis, SourceAnalysis.hasErrors, hdiagnostics]
    rfl

/-- The configuration does not matter for the verdict. -/
theorem sameVerdict_analyze (file : SourceFile) (config config' : AnalysisConfig) :
    (file.analyze config).SameVerdict (file.analyze config') := by
  cases hparse : Program.parse file.content with
  | ok p =>
    obtain ⟨journal, hanalysis, -⟩ := analysis_of_parse_ok hparse config
    obtain ⟨journal', hanalysis', -⟩ := analysis_of_parse_ok hparse config'
    have hcount : (file.analyze config).errorCount = (file.analyze config').errorCount := by
      rw [errorCount_of_parse_ok hparse, errorCount_of_parse_ok hparse]
    have herrors : (file.analyze config).hasErrors = (file.analyze config').hasErrors := by
      rw [SourceAnalysis.hasErrors_eq, SourceAnalysis.hasErrors_eq, hcount]
    constructor
    case errors =>
      rw [hanalysis, hanalysis', Option.map_some, Option.map_some,
        (p.errors_and_warnings_analyze config journal).1,
        (p.errors_and_warnings_analyze config' journal').1]
    case unread => exact fun hnone => nomatch hanalysis.symm.trans hnone
    case errorCount => exact hcount
    case hasErrors => exact herrors
    case isAccepted => rw [isAccepted_analyze, isAccepted_analyze, herrors]
  | error faults =>
    obtain ⟨-, -, heq⟩ := analyze_of_parse_error hparse config
    rw [heq config']
    exact ⟨rfl, fun _ => rfl, rfl, rfl, rfl⟩

end SourceFile

/-! ## Exit codes -/

namespace Options

/-- A task that analyses a text ends by its verdict. -/
theorem exitCode_report {o : Options} {filter : LogFilter} {t : Timings} {a : SourceAnalysis}
    (htask : o.task.file?.isSome) (ha : a.isAccepted = !a.hasErrors) :
    (o.report filter a t).exitCode = RunOutcome.codeOf a.isAccepted := by
  obtain ⟨task, isVerbose, isColored⟩ := o
  cases task with
  | check path wanted =>
    rw [ha]
    rfl
  | analyze path format wanted config =>
    obtain ⟨file, diagnostics, analysis, lines, statements, warningCount, journal⟩ := a
    cases analysis <;> cases format <;> rfl
  | info => cases htask

/-- Two tasks that analyse the same file end alike. -/
theorem exitCode_run_eq {o o' : Options} {filter filter' : Option String} {t t' : Timings}
    (read : String → FileContent) (htask : o.task.file?.isSome)
    (hfile : o.task.file? = o'.task.file?) :
    (o.run filter read t).exitCode = (o'.run filter' read t').exitCode := by
  have htask' : o'.task.file?.isSome := hfile ▸ htask
  unfold run
  rw [← hfile]
  cases hpath : o.task.file? with
  | none => rfl
  | some path =>
    dsimp only
    cases (read path).text path with
    | error message => rfl
    | ok text =>
      dsimp only
      rw [exitCode_report htask (SourceFile.isAccepted_analyze _ _),
        exitCode_report htask' (SourceFile.isAccepted_analyze _ _),
        (SourceFile.sameVerdict_analyze _ o.task.config o'.task.config).isAccepted]

end Options

/-! ## Independence -/

/--
Two runs of passes on the same program, under configurations that agree in what concerns one of the
passes, get the same from this pass if it is once in either of them, whatever the others are. The
verdict on a text is the same under every configuration, and tasks that analyse the same file end
with the same exit code.
-/
theorem passes_independent :
    (∀ (p : Program) (table : SymbolTable) (pass : Pass) (config config' : AnalysisConfig)
      (passes passes' : List Pass) (journal journal' : Journal),
      pass.SameSettings config config' → passes.count pass = 1 → passes'.count pass = 1 →
      ∃ found,
        (AnalysisRecord.start table journal).Gains (.ofProgram config table p) passes pass found ∧
        (AnalysisRecord.start table journal').Gains (.ofProgram config' table p) passes' pass
          found) ∧
    (∀ (file : SourceFile) (config config' : AnalysisConfig),
      (file.analyze config).SameVerdict (file.analyze config')) ∧
    ∀ (o o' : Options) (filter filter' : Option String) (t t' : Timings)
      (read : String → FileContent), o.task.file?.isSome → o.task.file? = o'.task.file? →
      (o.run filter read t).exitCode = (o'.run filter' read t').exitCode := by
  refine ⟨?_, SourceFile.sameVerdict_analyze, ?_⟩
  · intro p table pass config config' passes passes' journal journal' hconfig hcount hcount'
    refine ⟨(AnalysisInput.ofProgram config table p).gain pass,
      AnalysisRecord.gains_gain (.ofProgram config table p) journal hcount, ?_⟩
    rw [AnalysisInput.gain_congr hconfig]
    exact AnalysisRecord.gains_gain (.ofProgram config' table p) journal' hcount'
  · intro o o' filter filter' t t' read htask hfile
    exact Options.exitCode_run_eq read htask hfile

/-- `10 X = A + B` and `20 Y = A + B`. -/
def sumTwice : Program :=
  let sum : Expr Float := .binary .add (.scalar ⟨"A"⟩) (.scalar ⟨"B"⟩)
  ⟨[⟨10, [.command ⟨10, 4⟩ (.assign (.scalar ⟨"X"⟩) sum)], 1⟩,
    ⟨20, [.command ⟨20, 4⟩ (.assign (.scalar ⟨"Y"⟩) sum)], 2⟩]⟩

/-- Common subexpressions after the integer ranges, and before the validation. -/
theorem passes_independent_sumTwice :
    (∃ found,
      (AnalysisRecord.start .empty .empty).Gains (.ofProgram {} .empty sumTwice)
        [.integerRange, .commonSubexpressions] .commonSubexpressions found ∧
      (AnalysisRecord.start .empty .empty).Gains
        (.ofProgram { loops := false, maxCallDepth := 1 } .empty sumTwice)
        [.commonSubexpressions, .validation] .commonSubexpressions found) ∧
    ∀ (read : String → FileContent) (t : Timings),
      (Options.run ⟨.check "SUM.BAS" true, true, false⟩ none read t).exitCode =
        (Options.run ⟨.analyze "SUM.BAS" .json false {}, false, false⟩ none read t).exitCode :=
  ⟨passes_independent.1 sumTwice .empty .commonSubexpressions _ _ _ _ .empty .empty rfl rfl rfl,
    fun read t => passes_independent.2.2 _ _ none none t t read rfl rfl⟩

end LineBasic
