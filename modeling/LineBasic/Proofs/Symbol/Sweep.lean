import Mathlib.Data.List.Forall2
import LineBasic.Range.Condition
import LineBasic.Symbol.Build

/-!
# The sweep over the declarations

What the second sweep of a symbol table knows of the numbers in scalars and of the bounds of arrays.
A statement changes the numbers of the scalars that it names as written only, and only an assignment
of a known number outside all arms sets one. The bounds of an array are those of its first `DIM`,
evaluated with the numbers known there. Both are parts of `SymbolSweep.statement_spec`.
-/

namespace LineBasic
namespace SymbolSweep

variable {s s' : SymbolSweep} {line : Nat} {key : String}

/-- The line of the `DIM` of an array and the bounds found there. -/
def bounds? (s : SymbolSweep) (key : String) : Option (Nat × List Int) :=
  s.table.arrays[key]?.bind fun info => info.dimLine.map fun line => (line, info.dimensions)

/-! ## Meeting variables -/

/-- The known numbers and the bounds of arrays are the same. -/
structure Agrees (s s' : SymbolSweep) : Prop where
  constants : s'.constants = s.constants
  bounds : ∀ key, s'.bounds? key = s.bounds? key

theorem Agrees.refl (s : SymbolSweep) : Agrees s s := ⟨rfl, fun _ => rfl⟩

theorem Agrees.trans {s'' : SymbolSweep} (h : Agrees s s') (h' : Agrees s' s'') : Agrees s s'' :=
  ⟨h'.constants.trans h.constants, fun key => (h'.bounds key).trans (h.bounds key)⟩

theorem agrees_fail (s : SymbolSweep) (line : Nat) (cause : ErrorCause) :
    Agrees s (s.fail line cause) := ⟨rfl, fun _ => rfl⟩

theorem agrees_touchScalar (s : SymbolSweep) (line : Nat) (name : Name) :
    Agrees s (s.touchScalar line name) := by
  rw [touchScalar]
  split
  · exact .refl s
  · exact ⟨rfl, fun _ => rfl⟩

theorem agrees_touchArray (s : SymbolSweep) (line : Nat) (name : Name) (rank : Nat) :
    Agrees s (s.touchArray line name rank) := by
  rw [touchArray]
  dsimp only
  split
  · exact ⟨rfl, fun _ => rfl⟩
  next hnew =>
    refine ⟨rfl, fun key => ?_⟩
    simp only [bounds?, Std.ExtTreeMap.getElem?_insert]
    split
    next heq =>
      obtain rfl : name.key = key := Std.LawfulEqCmp.eq_of_compare heq
      have none : s.table.arrays[name.key]? = none := by simpa using hnew
      rw [none]
      rfl
    next => rfl

theorem agrees_foldl {α : Type} {f : SymbolSweep → α → SymbolSweep} {items : List α}
    (hf : ∀ s, ∀ a ∈ items, Agrees s (f s a)) (s : SymbolSweep) : Agrees s (items.foldl f s) :=
  List.foldlRecOn items f (Agrees.refl s) fun s' h a ha => h.trans (hf s' a ha)

theorem agrees_touchExpr (s : SymbolSweep) (line : Nat) (hidden : List String) (e : Expr Float) :
    Agrees s (s.touchExpr line hidden e) := by
  refine agrees_foldl (fun s e _ => ?_) s
  split
  · split
    · exact .refl s
    · exact agrees_touchScalar ..
  · exact agrees_touchArray ..
  · exact .refl s

theorem agrees_touchExprs (s : SymbolSweep) (line : Nat) (es : List (Expr Float)) :
    Agrees s (s.touchExprs line es) :=
  agrees_foldl (fun s _ _ => agrees_touchExpr s line [] _) s

/-- A directive meets no variable. -/
theorem agrees_directive (s : SymbolSweep) (statement : Statement) :
    Agrees s (s.directive statement) := by
  unfold directive
  split
  next place base =>
    unfold optionBase
    split_ifs
    · exact agrees_fail ..
    · split <;> exact ⟨rfl, fun _ => rfl⟩
    · split <;> exact ⟨rfl, fun _ => rfl⟩
  next => exact ⟨rfl, fun _ => rfl⟩
  next place name params body =>
    unfold defFn
    split <;> exact ⟨rfl, fun _ => rfl⟩
  next => exact .refl s

/-! ## Writing scalars -/

/-- The scalars lose their numbers, and nothing else changes. -/
structure Forgets (keys : List String) (s s' : SymbolSweep) : Prop where
  constants : ∀ key, s'.constants[key]? = if key ∈ keys then none else s.constants[key]?
  bounds : ∀ key, s'.bounds? key = s.bounds? key

theorem Agrees.forgets (h : Agrees s s') : Forgets [] s s' :=
  ⟨fun key => by simp [h.constants], h.bounds⟩

theorem Forgets.trans {keys keys' : List String} {s'' : SymbolSweep} (h : Forgets keys s s')
    (h' : Forgets keys' s' s'') : Forgets (keys ++ keys') s s'' where
  constants key := by
    rw [h'.constants, h.constants]
    by_cases hkey : key ∈ keys' <;> simp [hkey]
  bounds key := (h'.bounds key).trans (h.bounds key)

theorem Agrees.trans_forgets {keys : List String} {s'' : SymbolSweep} (h : Agrees s s')
    (h' : Forgets keys s' s'') : Forgets keys s s'' := h.forgets.trans h'

theorem forgets_forget (s : SymbolSweep) (name : Name) : Forgets [name.key] s (s.forget name) where
  constants key := by
    simp only [forget, Std.ExtTreeMap.getElem?_erase, Std.LawfulEqCmp.compare_eq_iff_eq,
      List.mem_singleton]
    exact if_congr eq_comm rfl rfl
  bounds _ := rfl

theorem forgets_assign (s : SymbolSweep) (line : Nat) (target : Target Float) :
    Forgets target.scalarKey?.toList s (s.assign line target) := by
  cases target with
  | scalar name => exact (agrees_touchScalar s line name).trans_forgets (forgets_forget _ name)
  | element name subscripts => exact (agrees_touchArray s line name _).forgets

theorem forgets_assignAll (line : Nat) (targets : List (Target Float)) (s : SymbolSweep) :
    Forgets (targets.filterMap Target.scalarKey?) s (targets.foldl (assign line) s) := by
  induction targets generalizing s with
  | nil => exact (Agrees.refl s).forgets
  | cons target rest ih =>
    have h := (forgets_assign s line target).trans (ih (s.assign line target))
    rw [List.filterMap_cons]
    cases hkey : target.scalarKey? with
    | none => simpa [hkey] using h
    | some key => simpa [hkey] using h

theorem forgets_forgetAll (counters : List Name) (s : SymbolSweep) :
    Forgets (counters.map Name.key) s (counters.foldl forget s) := by
  induction counters generalizing s with
  | nil => exact (Agrees.refl s).forgets
  | cons counter rest ih => exact (forgets_forget s counter).trans (ih _)

theorem Agrees.known?_eq (h : Agrees s s') (e : Expr Float) : s'.known? e = s.known? e := by
  rw [known?, h.constants, known?]

/-! ## Declaring arrays -/

/-- The bounds are the values of the extents with the known numbers; a faulty `DIM` has none. -/
def Extents (s : SymbolSweep) (array : ArrayDecl) (dimensions : List Int) : Prop :=
  dimensions = [] ∨ List.Forall₂ (fun e d => ∃ x, s.known? e = some x ∧
    Arithmetic.nearest? x = some d) array.extents dimensions

theorem nearest?_of_extent {name : String} {e : Expr Float} {x : Option Float} {d : Int}
    (h : extent name e x = .ok d) : ∃ y, x = some y ∧ Arithmetic.nearest? y = some d := by
  cases x with
  | none => cases h
  | some y =>
    rw [extent] at h
    split at h
    next n hn =>
      split_ifs at h
      cases h
      exact ⟨y, rfl, hn⟩
    next => split_ifs at h

theorem forall₂_of_faultless {name : String} (value : Expr Float → Option Float) :
    ∀ {es : List (Expr Float)},
      ((es.map fun e => extent name e (value e)).filterMap fun r => match r with
        | .error cause => some cause
        | .ok _ => none).isEmpty = true →
      List.Forall₂ (fun e d => ∃ x, value e = some x ∧ Arithmetic.nearest? x = some d) es
        ((es.map fun e => extent name e (value e)).filterMap Except.toOption)
  | [], _ => .nil
  | e :: rest, h => by
    rw [List.map_cons, List.filterMap_cons] at h ⊢
    cases hd : extent name e (value e) with
    | error cause => simp [hd] at h
    | ok d =>
      rw [hd] at h
      exact .cons (nearest?_of_extent hd) (forall₂_of_faultless value h)

/-- A `DIM` of one array leaves the known numbers alone, and the bounds of the others. -/
theorem declare_spec (line : Nat) (s : SymbolSweep) (array : ArrayDecl) :
    (s.declare line array).constants = s.constants ∧
      ∀ key, (s.declare line array).bounds? key = s.bounds? key ∨
        key = array.name.key ∧ ∃ dimensions, Extents s array dimensions ∧
          (s.declare line array).bounds? key = some (line, dimensions) := by
  rw [declare]
  dsimp only
  split
  · exact ⟨rfl, fun key => .inl rfl⟩
  next =>
    set extents := array.extents.map fun e => extent array.name.key e (s.known? e) with hextents
    set faults := extents.filterMap fun r => match r with
      | .error cause => some cause
      | .ok _ => none with hfaults
    set dimensions := if faults.isEmpty then extents.filterMap Except.toOption else []
      with hdimensions
    have evaluated : Extents s array dimensions := by
      rw [hdimensions]
      split
      next h => exact .inr (forall₂_of_faultless s.known? h)
      next => exact .inl rfl
    have met := (agrees_foldl (f := fun s cause => s.fail line cause)
      (fun s cause (_ : cause ∈ faults) => agrees_fail s line cause) s).trans
        (agrees_touchArray _ line array.name array.extents.length)
    generalize touchArray line _ array.name array.extents.length = s' at met ⊢
    refine ⟨met.constants, fun key => ?_⟩
    rw [← met.bounds key]
    simp only [bounds?, Std.ExtTreeMap.getElem?_modify, Std.LawfulEqCmp.compare_eq_iff_eq]
    split
    next hkey =>
      obtain rfl := hkey
      cases s'.table.arrays[array.name.key]? with
      | none => exact .inl rfl
      | some info => exact .inr ⟨rfl, dimensions, evaluated, rfl⟩
    next => exact .inl rfl

/-- A `DIM` statement leaves the known numbers alone, and evaluates bounds with them. -/
theorem declareAll_spec (line : Nat) (arrays : List ArrayDecl) (s : SymbolSweep) :
    (arrays.foldl (declare line) s).constants = s.constants ∧
      ∀ key, (arrays.foldl (declare line) s).bounds? key = s.bounds? key ∨
        ∃ array ∈ arrays, array.name.key = key ∧ ∃ dimensions, Extents s array dimensions ∧
          (arrays.foldl (declare line) s).bounds? key = some (line, dimensions) := by
  induction arrays generalizing s with
  | nil => exact ⟨rfl, fun key => .inl rfl⟩
  | cons array rest ih =>
    obtain ⟨hconstants, hbounds⟩ := declare_spec line s array
    obtain ⟨hconstants', hbounds'⟩ := ih (s.declare line array)
    have extents {array' : ArrayDecl} {dimensions : List Int}
        (h : Extents (s.declare line array) array' dimensions) : Extents s array' dimensions := by
      simpa only [Extents, known?, hconstants] using h
    refine ⟨hconstants'.trans hconstants, fun key => ?_⟩
    rcases hbounds' key with h' | ⟨array', harray', hkey, dimensions, hdimensions, h'⟩
    · rcases hbounds key with h | ⟨rfl, dimensions, hdimensions, h⟩
      · exact .inl (h'.trans h)
      · exact .inr ⟨array, List.mem_cons_self, rfl, dimensions, hdimensions, h'.trans h⟩
    · exact .inr ⟨array', List.mem_cons_of_mem _ harray', hkey, dimensions, extents hdimensions, h'⟩

/-! ## Statements -/

/-- The number that a statement outside all arms is known to assign to its scalar. -/
def assigned? (s : SymbolSweep) (depth : Nat) (statement : Statement) : Option Float :=
  match statement with
  | .command _ (.assign (.scalar _) value) => if depth = 0 then s.known? value else none
  | _ => none

/-- A command that neither assigns nor declares forgets the scalars that it names as written. -/
theorem forgets_command (s : SymbolSweep) (place : Place) (depth : Nat) (c : Command)
    (hassign : ∀ target value, c ≠ .assign target value) (hdim : ∀ arrays, c ≠ .dim arrays) :
    Forgets (Statement.command place c).writtenScalars s (s.command place.line depth c) := by
  have met (es : List (Expr Float)) := agrees_touchExprs s place.line es
  cases c with
  | assign target value => exact absurd rfl (hassign target value)
  | dim arrays => exact absurd rfl (hdim arrays)
  | input | read => exact (met _).trans_forgets (forgets_assignAll place.line _ _)
  | lineInput => exact (met _).trans_forgets (forgets_assign _ place.line _)
  | swap left right =>
    exact (met _).trans_forgets ((forgets_assign _ place.line left).trans
      (forgets_assign _ place.line right))
  | forLoop counter =>
    exact ((met _).trans (agrees_touchScalar _ place.line counter)).trans_forgets
      (forgets_forget _ counter)
  | next counters => exact forgets_forgetAll counters s
  | defFn name params body => exact (agrees_touchExpr s place.line _ body).forgets
  | _ => exact (met _).forgets

/-- An assignment sets the number of its scalar if it is known and stands outside all arms. -/
theorem command_assign (s : SymbolSweep) (line depth : Nat) (target : Target Float)
    (value : Expr Float) :
    (∀ key, (s.command line depth (.assign target value)).constants[key]? =
      if key ∈ target.scalarKey?.toList then if depth = 0 then s.known? value else none
      else s.constants[key]?) ∧
    ∀ key, (s.command line depth (.assign target value)).bounds? key = s.bounds? key := by
  have met := (agrees_touchExpr s line [] value).trans (agrees_touchExprs _ line target.subscripts)
  have assigned := met.trans_forgets (forgets_assign _ line target)
  unfold command
  dsimp only
  rw [met.known?_eq]
  refine ⟨fun key => ?_, fun key => ?_⟩
  · have forgotten := assigned.constants key
    cases target with
    | element name subscripts => simpa [Target.scalarKey?] using forgotten
    | scalar name =>
      rcases hn : s.known? value with _ | n
      · simpa [Target.scalarKey?] using forgotten
      · rcases depth with _ | depth
        · simp only [Target.scalarKey?, Option.toList_some, List.mem_singleton] at forgotten ⊢
          rw [Std.ExtTreeMap.getElem?_insert, forgotten]
          by_cases hkey : key = name.key
          · simp [hkey]
          · simp [hkey, Ne.symm hkey]
        · simpa [Target.scalarKey?] using forgotten
  · rw [← assigned.bounds key]
    split <;> rfl

/-- Only the scalars that the statement names as written change, and only to what it assigns. Only
a `DIM` sets bounds. -/
theorem statement_spec (s : SymbolSweep) (statement : Statement) (depth : Nat) :
    (∀ key, (s.statement (statement, depth)).constants[key]? =
      if key ∈ statement.writtenScalars then s.assigned? depth statement
      else s.constants[key]?) ∧
    ∀ key, (s.statement (statement, depth)).bounds? key = s.bounds? key ∨
      ∃ place arrays, statement = .command place (.dim arrays) ∧ ∃ array ∈ arrays,
        array.name.key = key ∧ ∃ dimensions, Extents s array dimensions ∧
          (s.statement (statement, depth)).bounds? key = some (place.line, dimensions) := by
  cases statement with
  | conditional place condition onTrue onFalse =>
    have met := agrees_touchExpr s place.line [] condition
    exact ⟨met.forgets.constants, fun key => .inl (met.bounds key)⟩
  | command place c =>
    by_cases hassign : ∃ target value, c = .assign target value
    · obtain ⟨target, value, rfl⟩ := hassign
      obtain ⟨hconstants, hbounds⟩ := command_assign s place.line depth target value
      refine ⟨fun key => (hconstants key).trans ?_, fun key => .inl (hbounds key)⟩
      cases target <;> rfl
    by_cases hdim : ∃ arrays, c = .dim arrays
    · obtain ⟨arrays, rfl⟩ := hdim
      have met := agrees_touchExprs s place.line (Command.dim arrays).roots
      obtain ⟨hconstants, hbounds⟩ :=
        declareAll_spec place.line arrays (s.touchExprs place.line (Command.dim arrays).roots)
      refine ⟨fun key => ?_, fun key => ?_⟩
      · exact congrArg (·[key]?) (hconstants.trans met.constants)
      · rcases hbounds key with h | ⟨array, harray, hkey, dimensions, hdimensions, h⟩
        · exact .inl (h.trans (met.bounds key))
        · refine .inr ⟨place, arrays, rfl, array, harray, hkey, dimensions, ?_, h⟩
          simpa only [Extents, met.known?_eq] using hdimensions
    · have forgets := forgets_command s place depth c
        (fun target value h => hassign ⟨target, value, h⟩) fun arrays h => hdim ⟨arrays, h⟩
      have unknown : s.assigned? depth (.command place c) = none := by
        cases c with
        | assign target value => exact absurd ⟨target, value, rfl⟩ hassign
        | _ => rfl
      exact ⟨fun key => unknown ▸ forgets.constants key, fun key => .inl (forgets.bounds key)⟩

end SymbolSweep
end LineBasic
