import LineBasic.Proofs.Program.CanonicalSpelling
import LineBasic.Symbol.Build

/-!
# Symbol tables in the canonical spelling

The symbol table of a program in the canonical spelling has the same entries, with the names and the
bodies that they keep in the canonical spelling (`SymbolTable.table_build_canonically`). The errors
are the same except for the text of a bound in a `DIM` statement, and the warnings are the same.
-/

namespace LineBasic

/-! ## Tables -/

theorem map_insert {α β : Type} (m : Std.ExtTreeMap String α) (f : α → β) (key : String)
    (value : α) :
    (m.insert key value).map (fun _ v => f v) = (m.map fun _ v => f v).insert key (f value) := by
  apply Std.ExtTreeMap.ext_getElem?
  intro other
  simp only [Std.ExtTreeMap.getElem?_map, Std.ExtTreeMap.getElem?_insert]
  exact apply_ite (Option.map f) ..

theorem map_modify {α β : Type} (m : Std.ExtTreeMap String α) {f : α → β} {change : α → α}
    {change' : β → β} (key : String) (h : ∀ v, change' (f v) = f (change v)) :
    (m.modify key change).map (fun _ v => f v) = (m.map fun _ v => f v).modify key change' := by
  apply Std.ExtTreeMap.ext_getElem?
  intro other
  simp only [Std.ExtTreeMap.getElem?_map, Std.ExtTreeMap.getElem?_modify]
  split_ifs
  · simp only [Option.map_map, Function.comp_def, h]
  · rfl

def ScalarInfo.canonically (info : ScalarInfo) : ScalarInfo :=
  { info with name := ⟨info.name.key⟩ }

def ArrayInfo.canonically (info : ArrayInfo) : ArrayInfo := { info with name := ⟨info.name.key⟩ }

def FunctionInfo.canonically (f : FunctionInfo) : FunctionInfo :=
  { f with name := ⟨f.name.key⟩, body := f.body.canonically }

/-- The table with the names and the bodies that it keeps in the canonical spelling. -/
def SymbolTable.canonically (t : SymbolTable) : SymbolTable :=
  { t with
    scalars := t.scalars.map fun _ info => info.canonically
    arrays := t.arrays.map fun _ info => info.canonically
    functions := t.functions.map fun _ f => f.canonically }

namespace SymbolTable

variable (t : SymbolTable)

theorem getElem?_scalars_canonically (key : String) :
    t.canonically.scalars[key]? = t.scalars[key]?.map ScalarInfo.canonically :=
  Std.ExtTreeMap.getElem?_map

theorem getElem?_arrays_canonically (key : String) :
    t.canonically.arrays[key]? = t.arrays[key]?.map ArrayInfo.canonically :=
  Std.ExtTreeMap.getElem?_map

theorem getElem?_functions_canonically (key : String) :
    t.canonically.functions[key]? = t.functions[key]?.map FunctionInfo.canonically :=
  Std.ExtTreeMap.getElem?_map

theorem typeOf_canonically (name : Name) : t.canonically.typeOf ⟨name.key⟩ = t.typeOf name := by
  rw [typeOf, name.suffix?_key, name.initial_key, typeOf]
  rfl

@[simp] theorem layout?_canonically (key : String) :
    t.canonically.layout? key = t.layout? key := by
  rw [layout?, getElem?_arrays_canonically, Option.bind_map, layout?]
  rfl

end SymbolTable

/-! ## Errors -/

/-- The cause without the text of a bound. -/
def ErrorCause.withoutExtent : ErrorCause → ErrorCause
  | nonConstantDimension name _ => nonConstantDimension name ""
  | dimensionTooLarge name _ => dimensionTooLarge name ""
  | cause => cause

def SemanticError.withoutExtent (e : SemanticError) : SemanticError :=
  { e with cause := e.cause.withoutExtent }

theorem ErrorCause.code_withoutExtent (cause : ErrorCause) :
    cause.withoutExtent.code = cause.code := by
  cases cause <;> rfl

/-! ## The sweeps -/

/-- The second sweep has gone over the same part of a program as the first one, in the canonical
spelling. -/
structure SymbolSweep.Spells (s s' : SymbolSweep) : Prop where
  table : s'.table = s.table.canonically
  errors : s'.errors.map SemanticError.withoutExtent = s.errors.map SemanticError.withoutExtent
  constants : s'.constants = s.constants
  ranks : s'.ranks = s.ranks

namespace SymbolSweep

variable {s s' : SymbolSweep}

theorem spells_empty : empty.Spells empty where
  table := rfl
  errors := rfl
  constants := rfl
  ranks := rfl

theorem Spells.fail (h : s.Spells s') (line : Nat) {cause cause' : ErrorCause}
    (hcause : cause'.withoutExtent = cause.withoutExtent) :
    (s.fail line cause).Spells (s'.fail line cause') :=
  { h with
    errors := by
      simp only [SymbolSweep.fail, List.map_append, h.errors, List.map_singleton,
        SemanticError.withoutExtent, SemanticError.onLine, hcause] }

theorem Spells.optionBase (h : s.Spells s') (line base : Nat) :
    (s.optionBase line base).Spells (s'.optionBase line base) := by
  have hbase : s'.table.base = s.table.base := by rw [h.table]; rfl
  have hfirst : s'.table.baseLine = s.table.baseLine := by rw [h.table]; rfl
  simp only [SymbolSweep.optionBase, hbase, hfirst]
  by_cases hlarge : 1 < base
  · simp only [if_pos hlarge]
    exact h.fail line rfl
  simp only [if_neg hlarge]
  cases s.table.baseLine with
  | none => exact { h with table := by rw [h.table]; rfl }
  | some firstLine =>
    by_cases hagrees : s.table.base = base
    · simp only [if_pos hagrees]
      exact h
    · simp only [if_neg hagrees]
      have hfailed : (s.fail line (.conflictingOptionBase firstLine s.table.base line base)).Spells
          (s'.fail line (.conflictingOptionBase firstLine s.table.base line base)) :=
        h.fail line rfl
      exact { hfailed with table := by rw [hfailed.table]; rfl }

theorem Spells.defType (h : s.Spells s') (type : StorageType) (ranges : List (Char × Char)) :
    (s.defType type ranges).Spells (s'.defType type ranges) :=
  { h with table := by simp only [SymbolSweep.defType, h.table, SymbolTable.canonically] }

theorem Spells.defFn (h : s.Spells s') (line : Nat) (name : Name) (params : List Name)
    (body : Expr Float) : (s.defFn line name params body).Spells
      (s'.defFn line ⟨name.key⟩ (params.map fun param => ⟨param.key⟩) body.canonically) := by
  have hfirst : s'.table.functions[name.key]? =
      s.table.functions[name.key]?.map FunctionInfo.canonically := by
    rw [h.table, SymbolTable.getElem?_functions_canonically]
  simp only [SymbolSweep.defFn, Name.key_key, hfirst, List.map_map, Function.comp_def]
  cases s.table.functions[name.key]? with
  | some first => exact h.fail line rfl
  | none =>
    refine { h with table := ?_ }
    simp only [h.table, Option.map_none, SymbolTable.canonically, map_insert]
    rfl

theorem Spells.directive (h : s.Spells s') (statement : Statement) :
    (s.directive statement).Spells (s'.directive statement.canonically) := by
  cases statement with
  | command place c =>
    cases c with
    | optionBase base => exact h.optionBase place.line base
    | defType type ranges => exact h.defType type ranges
    | defFn name params body => exact h.defFn place.line name params body
    | _ => exact h
  | conditional _ _ _ onFalse => cases onFalse <;> exact h

theorem Spells.touchScalar (h : s.Spells s') (line : Nat) (name : Name) :
    (s.touchScalar line name).Spells (s'.touchScalar line ⟨name.key⟩) := by
  have hcontains : s'.table.scalars.contains name.key = s.table.scalars.contains name.key := by
    rw [h.table]
    exact Std.ExtTreeMap.contains_map
  simp only [SymbolSweep.touchScalar, Name.key_key, hcontains]
  split_ifs
  · exact h
  · refine { h with table := ?_ }
    simp only [h.table, SymbolTable.typeOf_canonically]
    simp only [SymbolTable.canonically, map_insert]
    rfl

theorem Spells.touchArray (h : s.Spells s') (line : Nat) (name : Name) (rank : Nat) :
    (s.touchArray line name rank).Spells (s'.touchArray line ⟨name.key⟩ rank) := by
  have hcontains : s'.table.arrays.contains name.key = s.table.arrays.contains name.key := by
    rw [h.table]
    exact Std.ExtTreeMap.contains_map
  simp only [SymbolSweep.touchArray, Name.key_key, hcontains, h.ranks]
  split_ifs
  · exact { h with ranks := rfl }
  · refine { h with table := ?_, ranks := rfl }
    simp only [h.table, SymbolTable.typeOf_canonically]
    simp only [SymbolTable.canonically, map_insert]
    rfl

theorem Spells.foldl {α : Type} {step : SymbolSweep → α → SymbolSweep} {respelled : α → α}
    (hstep : ∀ {s s' a}, s.Spells s' → (step s a).Spells (step s' (respelled a)))
    (h : s.Spells s') (as : List α) :
    (as.foldl step s).Spells ((as.map respelled).foldl step s') := by
  induction as generalizing s s' with
  | nil => exact h
  | cons a as ih => exact ih (hstep h)

theorem Spells.touchExpr (h : s.Spells s') (line : Nat) (hidden : List String) (e : Expr Float) :
    (s.touchExpr line hidden e).Spells (s'.touchExpr line hidden e.canonically) := by
  rw [SymbolSweep.touchExpr, SymbolSweep.touchExpr, Expr.subterms_canonically]
  refine Spells.foldl (fun {s s' e} h => ?_) h _
  cases e with
  | scalar name =>
    simp only [Expr.canonically, Name.key_key]
    split_ifs
    · exact h
    · exact h.touchScalar line name
  | element name subscripts =>
    simp only [Expr.canonically, Expr.canonicallyList_eq_map, List.length_map]
    exact h.touchArray line name subscripts.length
  | _ => exact h

theorem Spells.touchExprs (h : s.Spells s') (line : Nat) (es : List (Expr Float)) :
    (s.touchExprs line es).Spells (s'.touchExprs line (es.map Expr.canonically)) :=
  Spells.foldl (fun h => h.touchExpr line [] _) h es

theorem Spells.forget (h : s.Spells s') (name : Name) :
    (s.forget name).Spells (s'.forget ⟨name.key⟩) :=
  { h with constants := by simp only [SymbolSweep.forget, Name.key_key, h.constants] }

theorem Spells.learn (h : s.Spells s') (name : Name) (n : Float) :
    { s with constants := s.constants.insert name.key n }.Spells
      { s' with constants := s'.constants.insert (⟨name.key⟩ : Name).key n } :=
  { h with constants := by simp only [Name.key_key, h.constants] }

theorem Spells.assign (h : s.Spells s') (line : Nat) (target : Target Float) :
    (s.assign line target).Spells (s'.assign line target.canonically) := by
  cases target with
  | scalar name => exact (h.touchScalar line name).forget name
  | element name subscripts =>
    simp only [Target.canonically, SymbolSweep.assign, Expr.canonicallyList_eq_map,
      List.length_map]
    exact h.touchArray line name subscripts.length

theorem Spells.known?_eq (h : s.Spells s') (e : Expr Float) :
    s'.known? e.canonically = s.known? e := by
  rw [known?, Expr.evaluate?_canonically, h.constants, known?]

theorem mapError_extent_canonically (name : String) (e : Expr Float) (value : Option Float) :
    (extent name e.canonically value).mapError ErrorCause.withoutExtent =
      (extent name e value).mapError ErrorCause.withoutExtent := by
  cases value with
  | none => rfl
  | some value =>
    simp only [extent]
    cases Arithmetic.nearest? value with
    | none =>
      dsimp
      split_ifs <;> rfl
    | some n =>
      dsimp
      split_ifs <;> rfl

theorem Spells.failAll (h : s.Spells s') (line : Nat) {faults faults' : List ErrorCause}
    (hfaults : faults'.map ErrorCause.withoutExtent = faults.map ErrorCause.withoutExtent) :
    (faults.foldl (fun s cause => s.fail line cause) s).Spells
      (faults'.foldl (fun s cause => s.fail line cause) s') := by
  induction faults generalizing faults' s s' with
  | nil =>
    obtain rfl := List.map_eq_nil_iff.1 hfaults
    exact h
  | cons cause rest ih =>
    obtain ⟨cause', rest', rfl, hcause, hrest⟩ := List.map_eq_cons_iff.1 hfaults
    exact ih (h.fail line hcause) hrest

/-- What is wrong with a bound. -/
def fault? : Except ErrorCause Int → Option ErrorCause
  | .error cause => some cause
  | .ok _ => none

/-- The sweep after a `DIM` of an array with these bounds that was not declared before. -/
def declared (line : Nat) (s : SymbolSweep) (array : ArrayDecl)
    (extents : List (Except ErrorCause Int)) : SymbolSweep :=
  let faults := extents.filterMap fault?
  let dimensions := if faults.isEmpty then extents.filterMap Except.toOption else []
  let s := faults.foldl (fun s cause => s.fail line cause) s
  let s := s.touchArray line array.name array.extents.length
  { s with table := { s.table with
      arrays := s.table.arrays.modify array.name.key fun info =>
        { info with dimLine := some line, dimensions } } }

theorem declare_of_new {line : Nat} {array : ArrayDecl}
    (h : s.table.arrays[array.name.key]?.bind ArrayInfo.dimLine = none) :
    s.declare line array = declared line s array
      (array.extents.map fun e => extent array.name.key e (s.known? e)) := by
  rw [declare, h]
  rfl

theorem Spells.declared (h : s.Spells s') (line : Nat) (array : ArrayDecl)
    {extents extents' : List (Except ErrorCause Int)}
    (hextents : extents'.map (Except.mapError ErrorCause.withoutExtent) =
      extents.map (Except.mapError ErrorCause.withoutExtent)) :
    (declared line s array extents).Spells (declared line s' array.canonically extents') := by
  have map_faults (rs : List (Except ErrorCause Int)) :
      (rs.filterMap fault?).map ErrorCause.withoutExtent =
        (rs.map (Except.mapError ErrorCause.withoutExtent)).filterMap fault? := by
    rw [List.map_filterMap, List.filterMap_map]
    congr 1
    funext r
    cases r <;> rfl
  have valid (rs : List (Except ErrorCause Int)) : rs.filterMap Except.toOption =
      (rs.map (Except.mapError ErrorCause.withoutExtent)).filterMap Except.toOption := by
    rw [List.filterMap_map]
    congr 1
    funext r
    cases r <;> rfl
  have hfaults : (extents'.filterMap fault?).map ErrorCause.withoutExtent =
      (extents.filterMap fault?).map ErrorCause.withoutExtent := by
    rw [map_faults, hextents, map_faults]
  have hempty : (extents'.filterMap fault?).isEmpty = (extents.filterMap fault?).isEmpty := by
    rw [← List.isEmpty_map, hfaults, List.isEmpty_map]
  have hvalid : extents'.filterMap Except.toOption = extents.filterMap Except.toOption := by
    rw [valid, hextents, ← valid]
  have hmet := (h.failAll line hfaults).touchArray line array.name array.extents.length
  simp only [SymbolSweep.declared, ArrayDecl.canonically, List.length_map, Name.key_key, hempty,
    hvalid]
  refine { hmet with table := ?_ }
  simp only [hmet.table, SymbolTable.canonically]
  rw [map_modify]
  exact fun info => rfl

theorem Spells.declare (h : s.Spells s') (line : Nat) (array : ArrayDecl) :
    (s.declare line array).Spells (s'.declare line array.canonically) := by
  have hdeclared : s'.table.arrays[array.name.key]?.bind ArrayInfo.dimLine =
      s.table.arrays[array.name.key]?.bind ArrayInfo.dimLine := by
    rw [h.table, SymbolTable.getElem?_arrays_canonically, Option.bind_map]
    rfl
  cases hnew : s.table.arrays[array.name.key]?.bind ArrayInfo.dimLine with
  | some firstLine =>
    simp only [SymbolSweep.declare, ArrayDecl.canonically, Name.key_key, hdeclared, hnew]
    exact h.fail line rfl
  | none =>
    have hnew' : s'.table.arrays[array.canonically.name.key]?.bind ArrayInfo.dimLine = none := by
      rw [ArrayDecl.canonically, Name.key_key, hdeclared, hnew]
    rw [declare_of_new hnew, declare_of_new hnew']
    refine h.declared line array ?_
    simp only [ArrayDecl.canonically, Name.key_key, List.map_map, Function.comp_def, h.known?_eq,
      mapError_extent_canonically]

theorem Spells.command (h : s.Spells s') (line depth : Nat) (c : Command) :
    (s.command line depth c).Spells (s'.command line depth c.canonically) := by
  have hroots := h.touchExprs line c.roots
  rw [← c.roots_canonically] at hroots
  cases c with
  | assign target value =>
    have hmet := (h.touchExpr line [] value).touchExprs line target.subscripts
    rw [← target.subscripts_canonically] at hmet
    have hassigned := hmet.assign line target
    simp only [SymbolSweep.command, Command.canonically, hmet.known?_eq value]
    cases target with
    | element => exact hassigned
    | scalar name =>
      cases ((s.touchExpr line [] value).touchExprs line (Target.scalar name).subscripts).known?
        value with
      | none => exact hassigned
      | some n =>
        cases depth with
        | succ => exact hassigned
        | zero => exact hassigned.learn name n
  | input _ _ targets => exact Spells.foldl (fun h => h.assign line _) hroots targets
  | read targets => exact Spells.foldl (fun h => h.assign line _) hroots targets
  | lineInput _ _ target => exact hroots.assign line target
  | swap left right => exact (hroots.assign line left).assign line right
  | forLoop counter => exact (hroots.touchScalar line counter).forget counter
  | next counters => exact Spells.foldl (fun h => h.forget _) h counters
  | dim arrays => exact Spells.foldl (fun h => h.declare line _) hroots arrays
  | defFn name params body =>
    have hbody := h.touchExpr line (params.map Name.key) body
    simp only [SymbolSweep.command, Command.canonically, List.map_map, Function.comp_def,
      Name.key_key]
    exact hbody
  | _ => exact hroots

theorem Spells.statement (h : s.Spells s') (occurrence : Statement × Nat) :
    (s.statement occurrence).Spells
      (s'.statement (occurrence.map Statement.canonically id)) := by
  obtain ⟨statement, depth⟩ := occurrence
  cases statement with
  | command place c => exact h.command place.line depth c
  | conditional place condition _ onFalse =>
    cases onFalse <;> exact h.touchExpr place.line [] condition

/-! ## Layout -/

theorem Spells.dimensionsOf_eq (h : s.Spells s') (array : ArrayInfo) :
    s'.dimensionsOf array.canonically = s.dimensionsOf array := by
  simp only [dimensionsOf, ArrayInfo.canonically, Name.key_key, h.ranks]

theorem Spells.layOut_eq (h : s.Spells s') (array : ArrayInfo) :
    s'.layOut array.canonically = (s.layOut array).canonically := by
  simp only [layOut, h.dimensionsOf_eq, h.table]
  rfl

theorem Spells.layoutError?_eq (h : s.Spells s') (array : ArrayInfo) :
    s'.layoutError? array.canonically = s.layoutError? array := by
  simp only [layoutError?, h.dimensionsOf_eq, h.layOut_eq, h.table]
  simp only [ArrayInfo.canonically, Name.key_key]
  rfl

theorem layoutWarning?_canonically (array : ArrayInfo) :
    layoutWarning? array.canonically = layoutWarning? array := by
  simp only [layoutWarning?, ArrayInfo.canonically, Name.key_key]

end SymbolSweep

namespace SymbolTable

theorem functionTypeOf_canonically (t : SymbolTable) (name : Name) :
    t.canonically.functionTypeOf name = t.functionTypeOf name := rfl

/-- Both sweeps over a program and over its canonical spelling. -/
theorem spells_sweep (p : Program) :
    (p.occurrences.foldl SymbolSweep.statement
      (p.allStatements.foldl SymbolSweep.directive .empty)).Spells
      (p.canonically.occurrences.foldl SymbolSweep.statement
        (p.canonically.allStatements.foldl SymbolSweep.directive .empty)) := by
  rw [p.occurrences_canonically, p.allStatements_canonically]
  refine SymbolSweep.Spells.foldl (fun h => h.statement _) ?_ p.occurrences
  exact SymbolSweep.Spells.foldl (fun h => h.directive _) SymbolSweep.spells_empty p.allStatements

/-- The names and bodies of the table are spelled canonically. -/
theorem table_build_canonically (p : Program) :
    (build p.canonically).table = (build p).table.canonically := by
  have h := spells_sweep p
  simp only [build, h.table, functionTypeOf_canonically]
  simp only [canonically, Std.ExtTreeMap.map_map, h.layOut_eq, FunctionInfo.canonically,
    Name.key_key]

/-- Arrays of the second sweep are those of the first one. -/
theorem arrays_sweep_canonically {s s' : SymbolSweep} (h : s.Spells s') :
    s'.table.arrays.toList.map Prod.snd =
      (s.table.arrays.toList.map Prod.snd).map ArrayInfo.canonically := by
  rw [h.table, canonically, Std.ExtTreeMap.toList_map, List.map_map, List.map_map]
  rfl

theorem errors_build_canonically (p : Program) :
    (build p.canonically).errors.map SemanticError.withoutExtent =
      (build p).errors.map SemanticError.withoutExtent := by
  have h := spells_sweep p
  simp only [build, List.map_append, h.errors, arrays_sweep_canonically h, List.filterMap_map,
    Function.comp_def, h.layoutError?_eq]

theorem warnings_build_canonically (p : Program) :
    (build p.canonically).warnings = (build p).warnings := by
  have h := spells_sweep p
  simp only [build, arrays_sweep_canonically h, List.filterMap_map, Function.comp_def,
    SymbolSweep.layoutWarning?_canonically]

end SymbolTable
end LineBasic
