import LineBasic.Analysis.Program

/-!
# Independence of the passes

A pass finds the same whatever passes run before it. The passes share the symbol table, and the
integer ranges are written to it, but no pass reads them
(`AnalysisInput.contribution_withoutRanges`). What a pass adds to the record is kept apart from what
the others add, so it is still there in the end (`AnalysisRecord.gains_gain`).
-/

namespace LineBasic

/-! ## Tables without integer ranges -/

def ScalarInfo.withoutRange (info : ScalarInfo) : ScalarInfo := { info with integerRange := none }

namespace SymbolTable

/-- The table without the integer ranges of its scalars. -/
def withoutRanges (t : SymbolTable) : SymbolTable :=
  { t with scalars := t.scalars.map fun _ info => info.withoutRange }

theorem withoutRanges_withRanges (t : SymbolTable) (ranges : List IntegerRange) :
    (t.withRanges ranges).withoutRanges = t.withoutRanges := by
  have hmodify (m : Std.ExtTreeMap String ScalarInfo) (r : IntegerRange) :
      ((m.modify r.name fun info => { info with integerRange := some r }).map fun _ info =>
        info.withoutRange) = m.map fun _ info => info.withoutRange := by
    apply Std.ExtTreeMap.ext_getElem?
    intro key
    rw [Std.ExtTreeMap.getElem?_map, Std.ExtTreeMap.getElem?_map, Std.ExtTreeMap.getElem?_modify]
    split
    next heq =>
      rw [Std.LawfulEqCmp.eq_of_compare heq, Option.map_map]
      rfl
    next => rfl
  have hclear (m : Std.ExtTreeMap String ScalarInfo) :
      ((ranges.foldl (fun m r => m.modify r.name fun info => { info with integerRange := some r })
        m).map fun _ info => info.withoutRange) = m.map fun _ info => info.withoutRange := by
    induction ranges generalizing m with
    | nil => rfl
    | cons r rest ih => rw [List.foldl_cons, ih, hmodify]
  simp only [withoutRanges, withRanges, hclear]

end SymbolTable

namespace Candidate

mutual

/-- Candidates depend on the arrays of the table only. -/
theorem ofTree_withoutRanges (t : SymbolTable) :
    ∀ e : Expr Float, ofTree t.withoutRanges e = ofTree t e
  | .number .. | .string _ | .scalar _ => rfl
  | .element name subscripts => by
    rw [ofTree, ofTree, ofTrees_withoutRanges t subscripts]
    rfl
  | .unary op operand => by
    rw [ofTree, ofTree, ofTree_withoutRanges t operand]
    rfl
  | .binary op left right => by
    rw [ofTree, ofTree, ofTree_withoutRanges t left, ofTree_withoutRanges t right]
    rfl
  | .intrinsic f args => by
    rw [ofTree, ofTree, ofTrees_withoutRanges t args]
    rfl
  | .call name args => by
    rw [ofTree, ofTree, ofTrees_withoutRanges t args]
    rfl

theorem ofTrees_withoutRanges (t : SymbolTable) :
    ∀ es : List (Expr Float), ofTrees t.withoutRanges es = ofTrees t es
  | [] => rfl
  | e :: rest => by
    rw [ofTrees, ofTrees, ofTree_withoutRanges t e, ofTrees_withoutRanges t rest]

end

end Candidate

theorem CandidateTable.build_withoutRanges (effects : Array Effects) (t : SymbolTable) :
    build effects t.withoutRanges = build effects t := by
  simp only [build, Candidate.ofTrees_withoutRanges]

/-- The inference of ranges begins with the types of the scalars only. -/
theorem inferIntegerRanges_withoutRanges (g : Graph) (t : SymbolTable) (limit : Nat) :
    inferIntegerRanges g t.withoutRanges limit = inferIntegerRanges g t limit := by
  have hstart (stores : List (String × Stored)) :
      RangeStates.start t.withoutRanges stores = RangeStates.start t stores := by
    have htype (name : String) : (t.withoutRanges.scalars[name]?).all (fun info =>
        info.type.isNumeric) = (t.scalars[name]?).all fun info => info.type.isNumeric := by
      rw [SymbolTable.withoutRanges, Std.ExtTreeMap.getElem?_map]
      cases t.scalars[name]? <;> rfl
    simp only [RangeStates.start, htype]
  simp only [inferIntegerRanges, hstart]

/-! ## What a pass finds -/

/-- The configurations agree in the switch and the limits of the pass. -/
def Pass.SameSettings (config config' : AnalysisConfig) : Pass → Prop
  | validation => config.maxCallDepth = config'.maxCallDepth
  | constantFolding | valueRange => True
  | strengthReduction => config.strengthReduction = config'.strengthReduction ∧
    config.booleanRules = config'.booleanRules
  | commonSubexpressions => config.commonSubexpressions = config'.commonSubexpressions
  | forwardSubstitution => config.forwardSubstitution = config'.forwardSubstitution
  | uninitializedVariables => config.uninitialized = config'.uninitialized
  | loopAnalysis => config.loops = config'.loops
  | integerRange => config.integerRanges = config'.integerRanges ∧
    config.maxRangeRounds = config'.maxRangeRounds

theorem Pass.SameSettings.isEnabled_eq {pass : Pass} {config config' : AnalysisConfig}
    (h : pass.SameSettings config config') : pass.isEnabled config = pass.isEnabled config' := by
  cases pass with
  | validation | constantFolding | valueRange => rfl
  | strengthReduction | integerRange => exact h.1
  | commonSubexpressions | forwardSubstitution | uninitializedVariables | loopAnalysis => exact h

namespace Contribution

/-- The pass that makes contributions of this kind. -/
def pass : Contribution → Pass
  | checks .. => .validation
  | folded _ => .constantFolding
  | reductions _ => .strengthReduction
  | commonSubexpressions _ => .commonSubexpressions
  | substitutions _ => .forwardSubstitution
  | uninitialized _ => .uninitializedVariables
  | loops _ => .loopAnalysis
  | integerRanges _ => .integerRange
  | conditionRanges _ => .valueRange

/-- The contribution of a pass that finds nothing. -/
def nothing : Pass → Contribution
  | .validation => checks [] [] []
  | .constantFolding => folded []
  | .strengthReduction => reductions []
  | .commonSubexpressions => commonSubexpressions []
  | .forwardSubstitution => substitutions []
  | .uninitializedVariables => uninitialized []
  | .loopAnalysis => loops []
  | .integerRange => integerRanges []
  | .valueRange => conditionRanges []

theorem pass_nothing (pass : Pass) : (nothing pass).pass = pass := by cases pass <;> rfl

end Contribution

namespace AnalysisInput

theorem pass_contribution (input : AnalysisInput) (pass : Pass) :
    (input.contribution pass).1.pass = pass := by
  cases pass <;> rfl

/-- No pass reads the integer ranges in the table. -/
theorem contribution_withoutRanges (input : AnalysisInput) (pass : Pass) :
    ({ input with table := input.table.withoutRanges }.contribution pass).1 =
      (input.contribution pass).1 := by
  cases pass with
  | commonSubexpressions => simp only [contribution, CandidateTable.build_withoutRanges]
  | integerRange => simp only [contribution, inferIntegerRanges_withoutRanges]
  | _ => rfl

theorem contribution_congr {input input' : AnalysisInput} (pass : Pass)
    (hinput : input' = { input with table := input'.table })
    (htable : input'.table.withoutRanges = input.table.withoutRanges) :
    (input'.contribution pass).1 = (input.contribution pass).1 := by
  rw [← input'.contribution_withoutRanges, ← input.contribution_withoutRanges, htable, hinput]

/-- What a pass contributes under a configuration that may have switched it off. -/
def gain (input : AnalysisInput) (pass : Pass) : Contribution :=
  if pass.isEnabled input.config then (input.contribution pass).1 else .nothing pass

theorem pass_gain (input : AnalysisInput) (pass : Pass) : (input.gain pass).pass = pass := by
  unfold gain
  split
  · exact input.pass_contribution pass
  · exact Contribution.pass_nothing pass

theorem gain_congr {pass : Pass} {config config' : AnalysisConfig}
    (h : pass.SameSettings config config') (table : SymbolTable) (p : Program) :
    (ofProgram config table p).gain pass = (ofProgram config' table p).gain pass := by
  have henabled : pass.isEnabled (ofProgram config table p).config =
      pass.isEnabled (ofProgram config' table p).config := h.isEnabled_eq
  have hfound : ((ofProgram config table p).contribution pass).1 =
      ((ofProgram config' table p).contribution pass).1 := by
    cases pass with
    | validation =>
      have hdepth : config.maxCallDepth = config'.maxCallDepth := h
      simp only [contribution, checks, ofProgram, hdepth]
    | strengthReduction => simp only [contribution, ofProgram, h.2]
    | integerRange => simp only [contribution, ofProgram, h.2]
    | _ => rfl
  rw [gain, gain, henabled, hfound]

end AnalysisInput

/-! ## What the record has of a pass -/

namespace AnalysisRecord

variable {r : AnalysisRecord} {input : AnalysisInput} {pass : Pass} {passes : List Pass}

/-- What a record has of a pass. All errors and warnings are those of the validation. -/
def foundBy (r : AnalysisRecord) : Pass → Contribution
  | .validation => .checks r.errors r.warnings r.findings.switches
  | .constantFolding => .folded r.findings.folded
  | .strengthReduction => .reductions r.findings.reductions
  | .commonSubexpressions => .commonSubexpressions r.findings.commonSubexpressions
  | .forwardSubstitution => .substitutions r.findings.substitutions
  | .uninitializedVariables => .uninitialized r.findings.uninitialized
  | .loopAnalysis => .loops r.findings.loops
  | .integerRange => .integerRanges r.findings.integerRanges
  | .valueRange => .conditionRanges r.findings.conditionRanges

theorem foundBy_start (table : SymbolTable) (journal : Journal) (pass : Pass) :
    (start table journal).foundBy pass = .nothing pass := by
  cases pass <;> rfl

theorem foundBy_journal (r : AnalysisRecord) (journal : Journal) (pass : Pass) :
    { r with journal }.foundBy pass = r.foundBy pass := by
  cases pass <;> rfl

/-- A contribution leaves what there is of the other passes. -/
theorem foundBy_add_of_ne {c : Contribution} (h : c.pass ≠ pass) :
    (r.add c).foundBy pass = r.foundBy pass := by
  cases c <;> cases pass <;> first | rfl | exact absurd rfl h

/-- Nothing else is there of the pass that makes the first contribution of its kind. -/
theorem foundBy_add {c : Contribution} (hpass : c.pass = pass)
    (h : r.foundBy pass = .nothing pass) : (r.add c).foundBy pass = c := by
  subst hpass
  cases c with
  | checks errors warnings switches =>
    obtain ⟨herrors, hwarnings, -⟩ := Contribution.checks.inj h
    simp only [add, Contribution.pass, foundBy, herrors, hwarnings, List.nil_append]
  | folded found =>
    have hfolded : r.findings.folded = [] := Contribution.folded.inj h
    simp only [add, Contribution.pass, foundBy, hfolded, List.nil_append]
  | reductions found =>
    have hreductions : r.findings.reductions = [] := Contribution.reductions.inj h
    simp only [add, Contribution.pass, foundBy, hreductions, List.nil_append]
  | _ => rfl

/-- A pass that has run neither now nor before has added nothing. -/
theorem add_nothing (h : r.foundBy pass = .nothing pass) : r.add (.nothing pass) = r := by
  obtain ⟨table, errors, warnings, ⟨_, _, _, _, _, _, _, _, _⟩, journal⟩ := r
  cases pass <;> cases h <;> rfl

theorem foundBy_perform_of_ne {pass' : Pass} (h : pass' ≠ pass) :
    (r.perform input pass').1.foundBy pass = r.foundBy pass := by
  have hpass : ({ input with table := r.table }.contribution pass').1.pass ≠ pass := by
    rwa [AnalysisInput.pass_contribution]
  unfold perform
  split
  · exact (foundBy_journal _ _ _).trans (foundBy_add_of_ne hpass)
  · exact foundBy_journal _ _ _

theorem withoutRanges_add (r : AnalysisRecord) (c : Contribution) :
    (r.add c).table.withoutRanges = r.table.withoutRanges := by
  cases c with
  | integerRanges found => exact r.table.withoutRanges_withRanges found
  | _ => rfl

theorem withoutRanges_perform (r : AnalysisRecord) (input : AnalysisInput) (pass : Pass) :
    (r.perform input pass).1.table.withoutRanges = r.table.withoutRanges := by
  unfold perform
  split
  · exact r.withoutRanges_add _
  · rfl

/-! ## Runs of passes -/

theorem performAll_eq_foldl (r : AnalysisRecord) (input : AnalysisInput) (passes : List Pass) :
    (r.performAll input passes).1 = passes.foldl (fun r pass => (r.perform input pass).1) r := by
  unfold performAll
  generalize PassResult.empty = total
  induction passes generalizing r total with
  | nil => rfl
  | cons pass rest ih => exact ih _ _

theorem performAll_append (r : AnalysisRecord) (input : AnalysisInput) (before after : List Pass) :
    (r.performAll input (before ++ after)).1 =
      ((r.performAll input before).1.performAll input after).1 := by
  simp only [performAll_eq_foldl, List.foldl_append]

theorem foundBy_performAll_of_not_mem (h : pass ∉ passes) :
    (r.performAll input passes).1.foundBy pass = r.foundBy pass := by
  rw [performAll_eq_foldl]
  induction passes generalizing r with
  | nil => rfl
  | cons pass' rest ih =>
    rw [List.mem_cons, not_or] at h
    rw [List.foldl_cons, ih h.2, foundBy_perform_of_ne (Ne.symm h.1)]

theorem withoutRanges_performAll (r : AnalysisRecord) (input : AnalysisInput) (passes : List Pass) :
    (r.performAll input passes).1.table.withoutRanges = r.table.withoutRanges := by
  rw [performAll_eq_foldl]
  induction passes generalizing r with
  | nil => rfl
  | cons pass rest ih => rw [List.foldl_cons, ih, withoutRanges_perform]

/-- Among the passes that run from `start` on, `pass` adds just `found` to the record, and this is
what the record has of it in the end. -/
structure Gains (start : AnalysisRecord) (input : AnalysisInput) (passes : List Pass) (pass : Pass)
    (found : Contribution) : Prop where
  added : ∀ before after, passes = before ++ pass :: after → ∃ journal,
    ((start.performAll input before).1.perform input pass).1 =
      { (start.performAll input before).1.add found with journal }
  kept : (start.performAll input passes).1.foundBy pass = found

/-- A pass that has not run yet adds what it finds in the input. -/
theorem exists_perform_eq (hnothing : r.foundBy pass = .nothing pass)
    (htable : r.table.withoutRanges = input.table.withoutRanges) :
    ∃ journal, (r.perform input pass).1 = { r.add (input.gain pass) with journal } := by
  unfold perform AnalysisInput.gain
  by_cases henabled : pass.isEnabled input.config
  · have hfound : ({ input with table := r.table }.contribution pass).1 =
        (input.contribution pass).1 := AnalysisInput.contribution_congr pass rfl htable
    simp only [if_pos henabled, hfound]
    exact ⟨_, rfl⟩
  · simp only [if_neg henabled, add_nothing hnothing]
    exact ⟨_, rfl⟩

theorem not_mem_of_count_eq_one {before after : List Pass}
    (hcount : (before ++ pass :: after).count pass = 1) : pass ∉ before ∧ pass ∉ after := by
  rw [List.count_append, List.count_cons_self] at hcount
  exact ⟨List.count_eq_zero.1 (by omega), List.count_eq_zero.1 (by omega)⟩

/-- Other passes leave a fresh record without anything of this one. -/
theorem foundBy_performAll_start (table : SymbolTable) (journal : Journal) (h : pass ∉ passes) :
    ((start table journal).performAll input passes).1.foundBy pass = .nothing pass := by
  rw [foundBy_performAll_of_not_mem h, foundBy_start]

/-- On a fresh record a pass gains what it finds in the input. -/
theorem gains_gain (input : AnalysisInput) (journal : Journal) (hcount : passes.count pass = 1) :
    (start input.table journal).Gains input passes pass (input.gain pass) := by
  have hadded (before : List Pass) (hbefore : pass ∉ before) := exists_perform_eq
    (foundBy_performAll_start input.table journal hbefore)
    ((start input.table journal).withoutRanges_performAll input before)
  constructor
  case added =>
    rintro before after rfl
    exact hadded before (not_mem_of_count_eq_one hcount).1
  case kept =>
    have hmem : pass ∈ passes := List.count_pos_iff.1 (hcount ▸ Nat.one_pos)
    obtain ⟨before, after, rfl⟩ := List.append_of_mem hmem
    obtain ⟨hbefore, hafter⟩ := not_mem_of_count_eq_one hcount
    obtain ⟨journal', hperform⟩ := hadded before hbefore
    have hnothing : ((start input.table journal).performAll input before).1.foundBy pass =
        .nothing pass := foundBy_performAll_start input.table journal hbefore
    rw [performAll_append, performAll_eq_foldl _ _ (pass :: after), List.foldl_cons,
      ← performAll_eq_foldl, foundBy_performAll_of_not_mem hafter, hperform, foundBy_journal]
    exact foundBy_add (input.pass_gain pass) hnothing

end AnalysisRecord
end LineBasic
