import Mathlib.Data.List.Induction
import LineBasic.Proofs.ArrayLayout.RowMajor
import LineBasic.Proofs.Expr.Subterms
import LineBasic.Proofs.Grammar.Accepted
import LineBasic.Proofs.Symbol.Sweep

/-!
# The base of arrays

The first valid `OPTION BASE` of a text sets the base of all arrays, wherever it stands, and every
one that disagrees is an error (`SymbolSweep.Directed`). What the second sweep adds to the table
leaves the base alone, and an array comes out of it with bounds or with an error
(`SymbolSweep.Extends`). So a program without errors has a layout in row-major order for each of its
arrays, and an array without a layout comes with an error (`optionBase_governs`).
-/

namespace LineBasic

/-! ## Elements have subscripts -/

/-- Every array element in the expression has a subscript. -/
def Expr.IsIndexed (e : Expr Float) : Prop :=
  ∀ name subscripts, .element name subscripts ∈ e.subterms → subscripts ≠ []

/-- The expressions that stand in a statement, but not in its arms. -/
def Statement.spelled : Statement → List (Expr Float)
  | .command _ c => c.spelled
  | .conditional _ condition .. => [condition]

/-- Every element and every declaration of an array in the program has subscripts. -/
def Program.IsIndexed (p : Program) : Prop := ∀ s ∈ p.allStatements, ∀ e ∈ s.spelled, e.IsIndexed

namespace Grammar

theorem readClosed_isIndexed : ReadClosed Expr.IsIndexed where
  number := fun _ v _ _ name subscripts h => by
    cases List.mem_singleton.1 h
  string := fun _ s _ _ name subscripts h => by
    cases List.mem_singleton.1 h
  named := fun _ name _ _ => by
    refine ⟨fun name' subscripts h => ?_, fun subscripts hne hall name' subscripts' h => ?_⟩
    · cases List.mem_singleton.1 h
    · rcases List.mem_cons.1 h with heq | h
      · cases heq
        exact hne
      · obtain ⟨e, he, h⟩ := Expr.mem_subtermsOfList.1 h
        exact hall e he _ _ h
  call := fun _ name _ _ args hall name' subscripts h => by
    obtain ⟨e, he, h⟩ := Expr.mem_subtermsOfList.1 ((List.mem_cons.1 h).resolve_left nofun)
    exact hall e he _ _ h
  intrinsic := fun f args hall name subscripts h => by
    obtain ⟨e, he, h⟩ := Expr.mem_subtermsOfList.1 ((List.mem_cons.1 h).resolve_left nofun)
    exact hall e he _ _ h
  unary := fun op operand hoperand name subscripts h =>
    hoperand _ _ ((List.mem_cons.1 h).resolve_left nofun)
  binary := fun op left right hleft hright name subscripts h => by
    rcases List.mem_append.1 ((List.mem_cons.1 h).resolve_left nofun) with h | h
    · exact hleft _ _ h
    · exact hright _ _ h

end Grammar

/-- The programs that are read are of this kind. -/
theorem Program.isIndexed_of_parse {source : String} {p : Program} (h : parse source = .ok p) :
    p.IsIndexed := by
  have law (number : Nat) : Grammar.StatementLaw Expr.IsIndexed number
      fun s => ∀ e ∈ s.spelled, e.IsIndexed :=
    ⟨fun place c _ hc => hc, fun place condition _ _ _ hc => List.forall_mem_singleton.2 hc⟩
  have lines := throughout_of_parse h Grammar.readClosed_isIndexed law
  have all : Grammar.Throughout (fun s => ∀ e ∈ s.spelled, e.IsIndexed) p.statements := by
    refine Grammar.throughout_iff.2 fun s hs => ?_
    obtain ⟨l, hl, hs⟩ := List.mem_flatMap.1 hs
    exact Grammar.throughout_iff.1 (lines l hl) s hs
  intro s hs
  obtain ⟨o, ho, rfl⟩ := List.mem_map.1 hs
  exact all 0 o ho

/-! ## The statements that set the base -/

/-- The line and the base of an `OPTION BASE` that may set the base. -/
def Statement.base? : Statement → Option (Nat × Nat)
  | .command place (.optionBase base) => if base ≤ 1 then some (place.line, base) else none
  | _ => none

/-- The lines and the bases of the valid `OPTION BASE` statements, in the order of the text. -/
def Program.bases (p : Program) : List (Nat × Nat) := p.allStatements.filterMap Statement.base?

/-- The base that the first of them sets. -/
def baseOf (bases : List (Nat × Nat)) : Nat := (bases.head?.map Prod.snd).getD 0

/-- The error for each of them that disagrees with the first. -/
def conflictsOf : List (Nat × Nat) → List SemanticError
  | [] => []
  | (firstLine, first) :: rest => rest.filterMap fun (line, base) =>
    if base = first then none
    else some (.onLine line (.conflictingOptionBase firstLine first line base))

def SemanticError.isConflict (e : SemanticError) : Bool :=
  match e.cause with
  | .conflictingOptionBase .. => true
  | _ => false

namespace SymbolSweep

variable {s s' : SymbolSweep}

/-- The base is that of the statements met so far, the errors about it are theirs, and no array has
been met. -/
structure Directed (bases : List (Nat × Nat)) (s : SymbolSweep) : Prop where
  base : s.table.base = baseOf bases
  baseLine : s.table.baseLine = bases.head?.map Prod.fst
  resolved : s.table.baseResolved = bases.all fun b => b.2 == baseOf bases
  conflicts : s.errors.filter SemanticError.isConflict = conflictsOf bases
  arrays : s.table.arrays = ∅
  ranks : s.ranks = ∅

theorem directed_empty : Directed [] empty := ⟨rfl, rfl, rfl, rfl, rfl, rfl⟩

theorem filter_isConflict_fail {line : Nat} {cause : ErrorCause}
    (h : (SemanticError.onLine line cause).isConflict = false) :
    (s.fail line cause).errors.filter SemanticError.isConflict =
      s.errors.filter SemanticError.isConflict := by
  rw [fail, List.filter_append, List.filter_singleton, h]
  exact List.append_nil _

theorem Directed.optionBase {bases : List (Nat × Nat)} (h : Directed bases s) (line : Nat)
    {base : Nat} (hbase : base ≤ 1) : Directed (bases ++ [(line, base)]) (s.optionBase line base) := by
  unfold SymbolSweep.optionBase
  rw [if_neg (Nat.not_lt.2 hbase)]
  rcases bases with _ | ⟨⟨firstLine, first⟩, rest⟩
  · rw [h.baseLine]
    refine ⟨rfl, rfl, ?_, h.conflicts, h.arrays, h.ranks⟩
    rw [List.nil_append, List.all_cons, List.all_nil, Bool.and_true]
    exact h.resolved.trans (beq_self_eq_true base).symm
  · rw [h.baseLine]
    have hfirst : s.table.base = first := h.base
    dsimp only [List.head?_cons, Option.map_some]
    rw [hfirst]
    split
    next heq =>
      refine ⟨h.base, h.baseLine, ?_, ?_, h.arrays, h.ranks⟩
      · rw [h.resolved, List.all_append]
        simp [baseOf, heq]
      · rw [h.conflicts]
        simp [conflictsOf, heq]
    next hne =>
      refine ⟨h.base, h.baseLine, ?_, ?_, h.arrays, h.ranks⟩
      · rw [List.all_append]
        simp [baseOf, Ne.symm hne]
      · simp only [fail, List.filter_append, h.conflicts]
        simp [conflictsOf, Ne.symm hne, SemanticError.isConflict, SemanticError.onLine]

/-- Other directives leave the base alone. -/
theorem Directed.directive {bases : List (Nat × Nat)} (h : Directed bases s)
    (statement : Statement) :
    Directed (bases ++ statement.base?.toList) (s.directive statement) := by
  have failed {line : Nat} {cause : ErrorCause}
      (hcause : (SemanticError.onLine line cause).isConflict = false) :
      Directed bases (s.fail line cause) :=
    ⟨h.base, h.baseLine, h.resolved, (filter_isConflict_fail hcause).trans h.conflicts, h.arrays,
      h.ranks⟩
  unfold SymbolSweep.directive
  split
  next place base =>
    by_cases hbase : base ≤ 1
    · rw [Statement.base?, if_pos hbase]
      exact h.optionBase place.line hbase
    · rw [Statement.base?, if_neg hbase, SymbolSweep.optionBase, if_pos (Nat.lt_of_not_le hbase)]
      exact (List.append_nil bases).symm ▸ failed rfl
  next =>
    exact (List.append_nil bases).symm ▸
      ⟨h.base, h.baseLine, h.resolved, h.conflicts, h.arrays, h.ranks⟩
  next place name params body =>
    refine (List.append_nil bases).symm ▸ ?_
    rw [SymbolSweep.defFn]
    split
    · exact failed rfl
    · exact ⟨h.base, h.baseLine, h.resolved, h.conflicts, h.arrays, h.ranks⟩
  next =>
    have none : statement.base? = none := by
      unfold Statement.base?
      split <;> simp_all
    rw [none]
    exact (List.append_nil bases).symm ▸ h

/-- The first sweep finds the base. -/
theorem directed_directives (statements : List Statement) :
    Directed (statements.filterMap Statement.base?) (statements.foldl directive empty) := by
  induction statements using List.reverseRecOn with
  | nil => exact directed_empty
  | append_singleton rest statement ih =>
    rw [List.foldl_append, List.filterMap_append]
    have h := ih.directive statement
    cases hbase : statement.base? with
    | none => simpa [hbase] using h
    | some b => simpa [hbase] using h

/-! ## Arrays of the second sweep -/

/-- Arrays have been met with subscripts, each is listed under its key, and one that has been
declared has bounds, or something has failed. -/
structure Tidy (s : SymbolSweep) : Prop where
  ranks : ∀ key : String, ∀ rank, s.ranks[key]? = some rank → rank ≠ 0
  name : ∀ key : String, ∀ info, s.table.arrays[key]? = some info → info.name.key = key
  bounds : ∀ key : String, ∀ info, s.table.arrays[key]? = some info →
    info.dimLine.isSome = true → info.dimensions = [] → s.errors ≠ []

/-- The base and the errors about it are the same, no error is lost, and the arrays stay tidy. -/
structure Extends (s s' : SymbolSweep) : Prop where
  base : s'.table.base = s.table.base
  resolved : s'.table.baseResolved = s.table.baseResolved
  errors : s'.errors = [] → s.errors = []
  conflicts : s'.errors.filter SemanticError.isConflict = s.errors.filter SemanticError.isConflict
  tidy : s.Tidy → s'.Tidy

theorem Extends.refl (s : SymbolSweep) : Extends s s := ⟨rfl, rfl, id, rfl, id⟩

theorem Extends.trans {s'' : SymbolSweep} (h : Extends s s') (h' : Extends s' s'') :
    Extends s s'' :=
  ⟨h'.base.trans h.base, h'.resolved.trans h.resolved, h.errors ∘ h'.errors,
    h'.conflicts.trans h.conflicts, h'.tidy ∘ h.tidy⟩

theorem extends_foldl {α : Type} {f : SymbolSweep → α → SymbolSweep} {items : List α}
    (hf : ∀ s, ∀ a ∈ items, Extends s (f s a)) (s : SymbolSweep) : Extends s (items.foldl f s) :=
  List.foldlRecOn items f (Extends.refl s) fun s' h a ha => h.trans (hf s' a ha)

/-- A step that leaves the arrays and the errors alone. -/
theorem extends_of_eq (harrays : s'.table.arrays = s.table.arrays) (hranks : s'.ranks = s.ranks)
    (herrors : s'.errors = s.errors) (hbase : s'.table.base = s.table.base)
    (hresolved : s'.table.baseResolved = s.table.baseResolved) : Extends s s' where
  base := hbase
  resolved := hresolved
  errors h := herrors ▸ h
  conflicts := by rw [herrors]
  tidy h := ⟨hranks ▸ h.ranks, harrays ▸ h.name, harrays ▸ herrors ▸ h.bounds⟩

theorem errors_fail_ne_nil (line : Nat) (cause : ErrorCause) : (s.fail line cause).errors ≠ [] :=
  List.append_ne_nil_of_right_ne_nil _ (List.cons_ne_nil _ _)

theorem extends_fail {line : Nat} {cause : ErrorCause}
    (h : (SemanticError.onLine line cause).isConflict = false) : Extends s (s.fail line cause) where
  base := rfl
  resolved := rfl
  errors h := absurd h (errors_fail_ne_nil line cause)
  conflicts := filter_isConflict_fail h
  tidy h := ⟨h.ranks, h.name, fun _ _ _ _ _ => errors_fail_ne_nil line cause⟩

theorem extends_touchScalar (s : SymbolSweep) (line : Nat) (name : Name) :
    Extends s (s.touchScalar line name) := by
  rw [touchScalar]
  split
  · exact .refl s
  · exact extends_of_eq rfl rfl rfl rfl rfl

theorem extends_forget (s : SymbolSweep) (name : Name) : Extends s (s.forget name) :=
  extends_of_eq rfl rfl rfl rfl rfl

/-- An occurrence of an array with subscripts keeps the arrays tidy. -/
theorem extends_touchArray (s : SymbolSweep) (line : Nat) (name : Name) {rank : Nat}
    (hrank : rank ≠ 0) : Extends s (s.touchArray line name rank) := by
  have ranks (h : s.Tidy) : ∀ key : String, ∀ r,
      (s.ranks.insertIfNew name.key rank)[key]? = some r → r ≠ 0 := by
    intro key r hr
    rw [Std.ExtTreeMap.getElem?_insertIfNew] at hr
    split at hr
    · exact Option.some.inj hr ▸ hrank
    · exact h.ranks key r hr
  rw [touchArray]
  dsimp only
  split
  · exact ⟨rfl, rfl, id, rfl, fun h => ⟨ranks h, h.name, h.bounds⟩⟩
  · refine ⟨rfl, rfl, id, rfl, fun h => ⟨ranks h, fun key info hinfo => ?_,
      fun key info hinfo declared => ?_⟩⟩
    · rw [Std.ExtTreeMap.getElem?_insert] at hinfo
      split at hinfo
      next heq =>
        obtain rfl := Option.some.inj hinfo
        exact Std.LawfulEqCmp.eq_of_compare heq
      next => exact h.name key info hinfo
    · rw [Std.ExtTreeMap.getElem?_insert] at hinfo
      split at hinfo
      next =>
        obtain rfl := Option.some.inj hinfo
        cases declared
      next => exact h.bounds key info hinfo declared

theorem extends_touchExpr (s : SymbolSweep) (line : Nat) (hidden : List String) {e : Expr Float}
    (he : e.IsIndexed) : Extends s (s.touchExpr line hidden e) := by
  refine extends_foldl (fun s part hpart => ?_) s
  split
  · split
    · exact .refl s
    · exact extends_touchScalar ..
  next name subscripts =>
    exact extends_touchArray s line name (mt List.length_eq_zero_iff.1 (he name subscripts hpart))
  · exact .refl s

theorem extends_touchExprs (s : SymbolSweep) (line : Nat) {es : List (Expr Float)}
    (hes : ∀ e ∈ es, e.IsIndexed) : Extends s (s.touchExprs line es) :=
  extends_foldl (fun s e he => extends_touchExpr s line [] (hes e he)) s

theorem extends_assign (s : SymbolSweep) (line : Nat) {target : Target Float}
    (h : target.spelled.IsIndexed) : Extends s (s.assign line target) := by
  cases target with
  | scalar name => exact (extends_touchScalar s line name).trans (extends_forget _ name)
  | element name subscripts =>
    have hne : subscripts ≠ [] := h name subscripts (Expr.self_mem_subterms _)
    exact extends_touchArray s line name (mt List.length_eq_zero_iff.1 hne)

theorem extends_assignAll (s : SymbolSweep) (line : Nat) {targets : List (Target Float)}
    (h : ∀ t ∈ targets, t.spelled.IsIndexed) : Extends s (targets.foldl (assign line) s) :=
  extends_foldl (fun s t ht => extends_assign s line (h t ht)) s

theorem isConflict_of_extent {name : String} {e : Expr Float} {x : Option Float}
    {cause : ErrorCause} (h : extent name e x = .error cause) (line : Nat) :
    (SemanticError.onLine line cause).isConflict = false := by
  unfold extent at h
  split at h
  · cases h
    rfl
  · split at h <;> split_ifs at h <;> cases h <;> rfl

/-- A declaration that gives no bounds comes with an error. -/
theorem extends_bound (s : SymbolSweep) (line : Nat) (key : String) {dimensions : List Int}
    (h : dimensions = [] → s.errors ≠ []) :
    Extends s { s with table := { s.table with
      arrays := s.table.arrays.modify key fun info =>
        { info with dimLine := some line, dimensions } } } where
  base := rfl
  resolved := rfl
  errors := id
  conflicts := rfl
  tidy hs := by
    refine ⟨hs.ranks, fun other info hinfo => ?_, fun other info hinfo declared => ?_⟩
    · rw [Std.ExtTreeMap.getElem?_modify] at hinfo
      split at hinfo
      next hkey =>
        obtain ⟨info', hinfo', rfl⟩ := Option.map_eq_some_iff.1 hinfo
        exact (hs.name key info' hinfo').trans (Std.LawfulEqCmp.eq_of_compare hkey)
      next => exact hs.name other info hinfo
    · rw [Std.ExtTreeMap.getElem?_modify] at hinfo
      split at hinfo
      · obtain ⟨info', -, rfl⟩ := Option.map_eq_some_iff.1 hinfo
        exact h
      · exact hs.bounds other info hinfo declared

/-- Bounds of which none is at fault are some. -/
theorem filterMap_toOption_ne_nil {extents : List (Except ErrorCause Int)} (hne : extents ≠ [])
    (h : (extents.filterMap fun r => match r with
      | .error cause => some cause
      | .ok _ => none) = []) : extents.filterMap Except.toOption ≠ [] := by
  obtain ⟨r, rest, rfl⟩ := List.exists_cons_of_ne_nil hne
  cases r with
  | error cause => cases h
  | ok d => exact List.cons_ne_nil _ _

theorem errors_failAll (s : SymbolSweep) (line : Nat) (causes : List ErrorCause) :
    (causes.foldl (fun s cause => s.fail line cause) s).errors =
      s.errors ++ causes.map (.onLine line) := by
  induction causes generalizing s with
  | nil => exact (List.append_nil _).symm
  | cons cause rest ih =>
    rw [List.foldl_cons, ih, fail, List.append_assoc, List.map_cons]
    rfl

/-- A `DIM` of an array gives bounds, or something fails. -/
theorem extends_declare (s : SymbolSweep) (line : Nat) {array : ArrayDecl}
    (h : array.extents ≠ []) : Extends s (s.declare line array) := by
  rw [declare]
  dsimp only
  split
  · exact extends_fail rfl
  next =>
    set extents := array.extents.map fun e => extent array.name.key e (s.known? e) with hextents
    set faults := extents.filterMap fun r => match r with
      | .error cause => some cause
      | .ok _ => none with hfaults
    have harmless : ∀ cause ∈ faults, (SemanticError.onLine line cause).isConflict = false := by
      intro cause hcause
      obtain ⟨r, hr, hcause⟩ := List.mem_filterMap.1 hcause
      obtain ⟨e, -, rfl⟩ := List.mem_map.1 hr
      split at hcause
      next fault =>
        obtain rfl := Option.some.inj hcause
        exact isConflict_of_extent fault line
      next => cases hcause
    have failed : Extends s (faults.foldl (fun s cause => s.fail line cause) s) :=
      extends_foldl (fun s cause hcause => extends_fail (harmless cause hcause)) s
    have met := extends_touchArray (faults.foldl (fun s cause => s.fail line cause) s) line
      array.name (mt List.length_eq_zero_iff.1 h)
    refine (failed.trans met).trans (extends_bound _ line array.name.key fun hnone herrors => ?_)
    have hempty := met.errors herrors
    rw [errors_failAll, List.append_eq_nil_iff, List.map_eq_nil_iff] at hempty
    change (if faults.isEmpty then extents.filterMap Except.toOption else []) = [] at hnone
    rw [hempty.2, List.isEmpty_nil, if_pos rfl] at hnone
    have hne : extents ≠ [] := mt List.map_eq_nil_iff.1 h
    exact filterMap_toOption_ne_nil hne hempty.2 hnone

/-! ## Statements -/

theorem isIndexed_of_mem_roots {c : Command} (h : ∀ e ∈ c.spelled, e.IsIndexed) :
    ∀ e ∈ c.roots, e.IsIndexed := by
  have below {e part : Expr Float} (he : e ∈ part.subterms) (hpart : part.IsIndexed) :
      e.IsIndexed :=
    fun name subscripts hmem => hpart name subscripts (Expr.mem_subterms_trans hmem he)
  -- the bounds of arrays are the subscripts of what a `DIM` is spelled as
  have subscripts {e : Expr Float} {es : List (Expr Float)} (name : Name) (he : e ∈ es) :
      e ∈ (Expr.element name es).subterms :=
    List.mem_cons_of_mem _ (Expr.mem_subtermsOfList.2 ⟨e, he, Expr.self_mem_subterms e⟩)
  intro e he
  obtain ⟨part, hpart, he⟩ := List.mem_flatMap.1 he
  by_cases hdim : ∃ arrays, c = .dim arrays
  · obtain ⟨arrays, rfl⟩ := hdim
    obtain ⟨a, ha, hpart⟩ := List.mem_flatMap.1 hpart
    obtain ⟨extent, hextent, rfl⟩ := List.mem_map.1 hpart
    obtain rfl := List.mem_singleton.1 he
    exact below (subscripts a.name hextent) (h _ (List.mem_map.2 ⟨a, ha, rfl⟩))
  · have spelled : part.spelled ∈ c.spelled := by
      cases c with
      | dim arrays => exact absurd ⟨arrays, rfl⟩ hdim
      | _ => exact List.mem_map_of_mem hpart
    cases part with
    | expr root =>
      obtain rfl := List.mem_singleton.1 he
      exact h _ spelled
    | target t =>
      cases t with
      | scalar => cases he
      | element name es => exact below (subscripts name he) (h _ spelled)

theorem extends_command (s : SymbolSweep) (line depth : Nat) {c : Command}
    (h : ∀ e ∈ c.spelled, e.IsIndexed) : Extends s (s.command line depth c) := by
  have roots := isIndexed_of_mem_roots h
  have met := extends_touchExprs s line roots
  cases c with
  | assign target value =>
    have htarget : target.spelled.IsIndexed := h _ List.mem_cons_self
    have hvalue : value.IsIndexed := h _ (List.mem_cons_of_mem _ List.mem_cons_self)
    have subscripts : ∀ e ∈ target.subscripts, e.IsIndexed := fun e he =>
      roots e (List.mem_append_left _ he)
    have assigned := ((extends_touchExpr s line [] hvalue).trans
      (extends_touchExprs _ line subscripts)).trans (extends_assign _ line htarget)
    unfold command
    dsimp only
    split
    · exact assigned.trans (extends_of_eq rfl rfl rfl rfl rfl)
    · exact assigned
  | input channel prompt targets =>
    refine met.trans (extends_assignAll _ line fun t ht => h _ ?_)
    exact List.mem_map_of_mem (List.mem_append_right _ (List.mem_map_of_mem ht))
  | read targets =>
    exact met.trans (extends_assignAll _ line fun t ht =>
      h _ (List.mem_map_of_mem (List.mem_map_of_mem ht)))
  | lineInput channel prompt target =>
    refine met.trans (extends_assign _ line (h _ ?_))
    exact List.mem_map_of_mem (List.mem_append_right _ (List.mem_singleton_self _))
  | swap left right =>
    have hleft : left.spelled.IsIndexed := h _ List.mem_cons_self
    have hright : right.spelled.IsIndexed := h _ (List.mem_cons_of_mem _ List.mem_cons_self)
    exact (met.trans (extends_assign _ line hleft)).trans (extends_assign _ line hright)
  | forLoop counter =>
    exact (met.trans (extends_touchScalar _ line counter)).trans (extends_forget _ counter)
  | next counters => exact extends_foldl (fun s name _ => extends_forget s name) s
  | dim arrays =>
    refine met.trans (extends_foldl (fun s a ha => extends_declare s line ?_) _)
    exact h _ (List.mem_map_of_mem ha) a.name a.extents (Expr.self_mem_subterms _)
  | defFn name params body => exact extends_touchExpr s line _ (h _ List.mem_cons_self)
  | _ => exact met

theorem extends_statement (s : SymbolSweep) {statement : Statement} (depth : Nat)
    (h : ∀ e ∈ statement.spelled, e.IsIndexed) : Extends s (s.statement (statement, depth)) := by
  cases statement with
  | command place c => exact extends_command s place.line depth h
  | conditional place condition => exact extends_touchExpr s place.line [] (h _ List.mem_cons_self)

end SymbolSweep

/-! ## Tables of programs -/

namespace SymbolSweep

variable {s : SymbolSweep}

theorem dimensionsOf_ne_nil (h : s.Tidy) {key : String} {array : ArrayInfo}
    (harray : s.table.arrays[key]? = some array) (herrors : s.errors = []) :
    s.dimensionsOf array ≠ [] := by
  rw [dimensionsOf]
  split
  next declared => exact fun hnone => h.bounds key array harray declared hnone herrors
  next =>
    rw [h.name key array harray]
    cases hrank : s.ranks[key]? with
    | none => exact List.cons_ne_nil _ _
    | some rank => exact mt (List.replicate_eq_nil_iff _).1 (h.ranks key rank hrank)

theorem isConflict_of_layoutError? {array : ArrayInfo} {e : SemanticError}
    (h : s.layoutError? array = some e) : e.isConflict = false := by
  rw [layoutError?] at h
  dsimp only at h
  split_ifs at h
  · obtain ⟨line, -, rfl⟩ := Option.map_eq_some_iff.1 h
    rfl
  · obtain rfl := Option.some.inj h
    split <;> rfl

/-- An array with bounds has a layout under a base that nothing contradicts, or an error. -/
theorem layout_of_layoutError?_eq_none {array : ArrayInfo} (hbounds : s.dimensionsOf array ≠ [])
    (hresolved : s.table.baseResolved = true) (h : s.layoutError? array = none) :
    ∃ l, (s.layOut array).layout = some l ∧
      l.IsRowMajor s.table.base (s.layOut array).dimensions := by
  rw [layoutError?] at h
  dsimp only at h
  have hempty : ¬ (s.dimensionsOf array).isEmpty = true := mt List.isEmpty_iff.1 hbounds
  rw [if_neg hempty, if_neg (by simp [hresolved])] at h
  split_ifs at h with hlayout
  obtain ⟨l, hl⟩ := Option.isSome_iff_exists.1 hlayout
  refine ⟨l, hl, ArrayLayout.isRowMajor_of_ofExtents? ?_⟩
  rw [layOut] at hl ⊢
  dsimp only at hl ⊢
  rwa [if_neg (by simp [hbounds, hresolved])] at hl

end SymbolSweep

/-- The first valid `OPTION BASE` of the program sets the base of all its arrays. -/
structure BaseGoverns (p : Program) (built : SymbolBuild) : Prop where
  base : built.table.base = baseOf p.bases
  /-- The base is contradicted if and only if another statement gives another one. -/
  contradicted : built.table.baseResolved = false ↔ ∃ other ∈ p.bases, other.2 ≠ baseOf p.bases
  /-- Each such statement is reported once. -/
  conflicts : built.errors.filter SemanticError.isConflict = conflictsOf p.bases
  /-- Without errors, each array has its layout. -/
  layouts : built.errors = [] → ∀ key info, built.table.arrays[key]? = some info →
    ∃ l, info.layout = some l ∧ built.table.layout? key = some l ∧
      l.IsRowMajor (baseOf p.bases) info.dimensions
  /-- An array that is left without a layout comes with an error. -/
  errors : ∀ key info, built.table.arrays[key]? = some info →
    info.layout = none ∨ built.table.layout? key = none → built.errors ≠ []

theorem conflictsOf_eq_nil {bases : List (Nat × Nat)} (h : conflictsOf bases = []) :
    ∀ b ∈ bases, b.2 = baseOf bases := by
  rcases bases with _ | ⟨⟨firstLine, first⟩, rest⟩
  · exact List.forall_mem_nil _
  · refine List.forall_mem_cons.2 ⟨rfl, fun b hb => ?_⟩
    have hnone := List.filterMap_eq_nil_iff.1 h b hb
    by_contra hne
    have hne' : ¬ b.2 = first := hne
    simp [hne'] at hnone

/-- The base governs every program whose array elements have subscripts. -/
theorem baseGoverns_of_isIndexed {p : Program} (hp : p.IsIndexed) :
    BaseGoverns p (SymbolTable.build p) := by
  have directed := SymbolSweep.directed_directives p.allStatements
  set first := p.allStatements.foldl SymbolSweep.directive .empty with hfirst
  set s := p.occurrences.foldl SymbolSweep.statement first with hs
  have swept : first.Extends s := by
    refine SymbolSweep.extends_foldl (fun s o ho => ?_) first
    exact SymbolSweep.extends_statement s o.2 (hp o.1 (List.mem_map_of_mem ho))
  have tidy : s.Tidy := by
    refine swept.tidy ⟨fun key rank h => ?_, fun key info h => ?_, fun key info h => ?_⟩
    · simp [directed.ranks] at h
    · simp [directed.arrays] at h
    · simp [directed.arrays] at h
  have resolved : s.table.baseResolved = p.bases.all fun b => b.2 == baseOf p.bases :=
    swept.resolved.trans directed.resolved
  have conflicts : (SymbolTable.build p).errors.filter SemanticError.isConflict =
      conflictsOf p.bases := by
    have harmless (arrays : List ArrayInfo) :
        (arrays.filterMap s.layoutError?).filter SemanticError.isConflict = [] := by
      refine List.filter_eq_nil_iff.2 fun e he => ?_
      obtain ⟨array, -, he⟩ := List.mem_filterMap.1 he
      simp [SymbolSweep.isConflict_of_layoutError? he]
    change (s.errors ++ _).filter SemanticError.isConflict = _
    rw [List.filter_append, harmless, List.append_nil, swept.conflicts]
    exact directed.conflicts
  have layouts (herrors : (SymbolTable.build p).errors = []) (key : String) (info : ArrayInfo)
      (hinfo : (SymbolTable.build p).table.arrays[key]? = some info) :
      ∃ l, info.layout = some l ∧ (SymbolTable.build p).table.layout? key = some l ∧
        l.IsRowMajor (baseOf p.bases) info.dimensions := by
    rw [herrors] at conflicts
    have agree := conflictsOf_eq_nil conflicts.symm
    have hresolved : s.table.baseResolved = true := by
      rw [resolved, List.all_eq_true]
      exact fun b hb => beq_iff_eq.2 (agree b hb)
    obtain ⟨hnone, hlaid⟩ := List.append_eq_nil_iff.1 herrors
    have hinfo' := hinfo
    change (s.table.arrays.map fun _ array => s.layOut array)[key]? = some info at hinfo'
    rw [Std.ExtTreeMap.getElem?_map] at hinfo'
    obtain ⟨array, harray, rfl⟩ := Option.map_eq_some_iff.1 hinfo'
    have hmem : array ∈ s.table.arrays.toList.map Prod.snd :=
      List.mem_map.2 ⟨(key, array), Std.ExtTreeMap.mem_toList_iff_getElem?_eq_some.2 harray, rfl⟩
    obtain ⟨l, hl, hmajor⟩ := SymbolSweep.layout_of_layoutError?_eq_none
      (SymbolSweep.dimensionsOf_ne_nil tidy harray hnone) hresolved
      (List.filterMap_eq_nil_iff.1 hlaid array hmem)
    refine ⟨l, hl, ?_, (swept.base.trans directed.base) ▸ hmajor⟩
    have hresolved' : (SymbolTable.build p).table.baseResolved = true := hresolved
    rw [SymbolTable.layout?, if_pos hresolved', hinfo]
    exact hl
  refine ⟨swept.base.trans directed.base, ?_, conflicts, layouts, ?_⟩
  · change s.table.baseResolved = false ↔ _
    simp [resolved]
  · intro key info hinfo hmissing herrors
    obtain ⟨l, hl, hl', -⟩ := layouts herrors key info hinfo
    rcases hmissing with h | h
    · exact absurd (hl.symm.trans h) (Option.some_ne_none l)
    · exact absurd (hl'.symm.trans h) (Option.some_ne_none l)

/--
In every program that is read, the first valid `OPTION BASE` of the text sets the base, every other
one that disagrees is an error of its own, and all arrays have a row-major layout under that base
unless there is an error.
-/
theorem optionBase_governs {source : String} {p : Program} (h : Program.parse source = .ok p) :
    BaseGoverns p (SymbolTable.build p) :=
  baseGoverns_of_isIndexed (Program.isIndexed_of_parse h)

/-- Two arrays, and in an arm after them the statement that sets their base. -/
def laterBaseText : String := "10 DIM A(2,3)\n20 IF B(1)=0 THEN OPTION BASE 1\n"

/-- The declared array is laid out under the base that is set later, without an error. -/
theorem exists_layout_laterBase :
    ∃ p, Program.parse laterBaseText = .ok p ∧ p.bases = [(20, 1)] ∧
      BaseGoverns p (SymbolTable.build p) ∧ (SymbolTable.build p).errors = [] ∧
      ∃ l, (SymbolTable.build p).table.layout? "A" = some l ∧ l.IsRowMajor 1 [2, 3] := by
  have found : ((Program.parse laterBaseText).toOption.any fun p =>
      p.bases == [(20, 1)] && (SymbolTable.build p).errors.isEmpty &&
        ((SymbolTable.build p).table.arrays["A"]?).any fun info => info.dimensions == [2, 3]) =
          true := by
    decide +kernel
  obtain ⟨p, hp, h⟩ := (Option.any_eq_true ..).1 found
  rw [Bool.and_eq_true, Bool.and_eq_true, beq_iff_eq, List.isEmpty_iff] at h
  obtain ⟨⟨hbases, herrors⟩, h⟩ := h
  obtain ⟨info, hinfo, hbounds⟩ := (Option.any_eq_true ..).1 h
  have parsed : Program.parse laterBaseText = .ok p := by
    cases hparse : Program.parse laterBaseText with
    | error => rw [hparse] at hp; cases hp
    | ok => rw [hparse] at hp; exact congrArg _ (Option.some.inj hp)
  have governs := optionBase_governs parsed
  obtain ⟨l, -, hl, hmajor⟩ := governs.layouts herrors "A" info hinfo
  rw [hbases, beq_iff_eq.1 hbounds] at hmajor
  exact ⟨p, parsed, hbases, governs, herrors, l, hl, hmajor⟩

end LineBasic
