import Mathlib.Tactic.SplitIfs
import LineBasic.Flow.Effects
import LineBasic.Proofs.Expr.Subterms

/-!
# Reads through user functions

An expression reads the scalars that it mentions and the free variables of all functions that a call
in it leads to, through the bodies of functions as well (`SymbolTable.exprReads_complete`). The
functions that are being expanded are not expanded again, so a recursive definition ends the
expansion; no function is lost by that, since the last visit of a function on a chain of calls is
followed by others only (`SymbolTable.Avoids.exists_first`).
-/

namespace LineBasic

namespace Expr

variable {ν : Type}

/-- The scalar occurs in the expression, in arguments and subscripts as well. -/
def Mentions (e : Expr ν) (key : String) : Prop :=
  ∃ name, .scalar name ∈ e.subterms ∧ name.key = key

/-- The expression holds a call of the function. -/
def Calls (e : Expr ν) (key : String) : Prop :=
  ∃ name args, .call name args ∈ e.subterms ∧ name.key = key

end Expr

theorem FunctionInfo.mem_freeVariables {f : FunctionInfo} {key : String} :
    key ∈ f.freeVariables ↔ f.body.Mentions key ∧ key ∉ f.parameters := by
  rw [freeVariables, List.mem_eraseDups, List.mem_filterMap]
  constructor
  · rintro ⟨sub, hsub, hkey⟩
    cases sub with
    | scalar name =>
      obtain ⟨hfree, rfl⟩ : name.key ∉ f.parameters ∧ name.key = key := by simpa using hkey
      exact ⟨⟨name, hsub, rfl⟩, hfree⟩
    | _ => cases hkey
  · rintro ⟨⟨name, hname, rfl⟩, hfree⟩
    exact ⟨.scalar name, hname, by simpa using hfree⟩

theorem FunctionInfo.exists_mem_bodyReads {f : FunctionInfo} {key : String} :
    (∃ u ∈ f.bodyReads, u.name = key) ↔ key ∈ f.freeVariables := by
  rw [bodyReads, ← List.mem_map, List.map_map]
  exact iff_of_eq (congrArg _ (List.map_id _))

namespace SymbolTable

variable {t : SymbolTable} {e : Expr Float} {visiting : List String} {key callee : String}
  {f g : FunctionInfo}

/-! ## Chains of calls -/

/-- A call in the expression leads to the function, directly or through the bodies of others. -/
inductive Reaches (t : SymbolTable) (e : Expr Float) : String → FunctionInfo → Prop
  | call {key : String} {f : FunctionInfo} : e.Calls key → t.functions[key]? = some f →
    Reaches t e key f
  | body {key callee : String} {f g : FunctionInfo} : Reaches t e key f → f.body.Calls callee →
    t.functions[callee]? = some g → Reaches t e callee g

/-- The same by functions that are not among those in `visiting`. -/
inductive Avoids (t : SymbolTable) (visiting : List String) (e : Expr Float) :
    String → FunctionInfo → Prop
  | call {key : String} {f : FunctionInfo} : e.Calls key → key ∉ visiting →
    t.functions[key]? = some f → Avoids t visiting e key f
  | body {key callee : String} {f g : FunctionInfo} : Avoids t visiting e key f →
    f.body.Calls callee → callee ∉ visiting → t.functions[callee]? = some g →
    Avoids t visiting e callee g

theorem Reaches.of_body (hkey : e.Calls key) (hf : t.functions[key]? = some f)
    (h : t.Reaches f.body callee g) : t.Reaches e callee g := by
  induction h with
  | call hcall hg => exact .body (.call hkey hf) hcall hg
  | body _ hcall hg ih => exact .body ih hcall hg

theorem Reaches.avoids_nil (h : t.Reaches e key f) : t.Avoids [] e key f := by
  induction h with
  | call hcall hf => exact .call hcall List.not_mem_nil hf
  | body _ hcall hg ih => exact .body ih hcall List.not_mem_nil hg

theorem Avoids.getElem? (h : t.Avoids visiting e key f) : t.functions[key]? = some f := by
  cases h with
  | call _ _ hf => exact hf
  | body _ _ _ hf => exact hf

/-- The chain of calls can be chosen such that its first function does not come again. -/
theorem Avoids.exists_first (h : t.Avoids visiting e callee g) :
    ∃ key f, e.Calls key ∧ key ∉ visiting ∧ t.functions[key]? = some f ∧
      (callee = key ∨ t.Avoids (key :: visiting) f.body callee g) := by
  induction h with
  | call hcall hnew hf => exact ⟨_, _, hcall, hnew, hf, .inl rfl⟩
  | @body last callee f g hlast hcall hnew hg ih =>
    obtain ⟨key, first, hkey, hkeynew, hfirst, hchain⟩ := ih
    by_cases hagain : callee = key
    · exact ⟨key, first, hkey, hkeynew, hfirst, .inl hagain⟩
    have hothers : callee ∉ key :: visiting := by simp [hagain, hnew]
    refine ⟨key, first, hkey, hkeynew, hfirst, .inr ?_⟩
    rcases hchain with rfl | hchain
    · obtain rfl : first = f := Option.some.inj (hfirst.symm.trans hlast.getElem?)
      exact .call hcall hothers hg
    · exact .body hchain hcall hothers hg

/-! ## Expansion -/

/-- The keys of the functions that may still be expanded. -/
def remaining (t : SymbolTable) (visiting : List String) : List String :=
  t.functions.keys.filter fun key => !visiting.contains key

theorem length_remaining_le (t : SymbolTable) (visiting : List String) :
    (t.remaining visiting).length ≤ t.functions.size :=
  Nat.le_trans (List.length_filter_le ..) (Nat.le_of_eq Std.ExtTreeMap.length_keys)

theorem mem_remaining : key ∈ t.remaining visiting ↔ key ∈ t.functions ∧ key ∉ visiting := by
  simp [remaining]

theorem length_remaining_cons (hf : t.functions[key]? = some f) (hnew : key ∉ visiting) :
    (t.remaining (key :: visiting)).length < (t.remaining visiting).length := by
  have hfilter : t.remaining (key :: visiting) = (t.remaining visiting).filter (· != key) := by
    rw [remaining, remaining, List.filter_filter]
    congr 1
    funext k
    by_cases hk : k = key <;> simp [hk]
  have hkey : key ∈ t.remaining visiting :=
    mem_remaining.2 ⟨Std.ExtTreeMap.mem_iff_isSome_getElem?.2 (hf ▸ rfl), hnew⟩
  rw [hfilter, List.length_filter_lt_length_iff_exists]
  exact ⟨key, hkey, by simp⟩

/-- Expansion of the functions that are called in the expression, one level. -/
theorem mem_callReads_succ {n : Nat} {u : VarUse} :
    u ∈ t.callReads (n + 1) visiting e ↔ ∃ key f, e.Calls key ∧ key ∉ visiting ∧
      t.functions[key]? = some f ∧
        (u ∈ f.bodyReads ∨ u ∈ t.callReads n (key :: visiting) f.body) := by
  rw [callReads, List.mem_flatMap]
  constructor
  · rintro ⟨sub, hsub, hu⟩
    split at hu
    next name args =>
      split_ifs at hu with hold
      · cases hu
      · split at hu
        next f hf =>
          exact ⟨name.key, f, ⟨name, args, hsub, rfl⟩, by simpa using hold, hf,
            List.mem_append.1 hu⟩
        next => cases hu
    next => cases hu
  · rintro ⟨_, f, ⟨name, args, hsub, rfl⟩, hnew, hf, hu⟩
    refine ⟨_, hsub, ?_⟩
    simp only [List.contains_iff_mem, hnew, if_false, hf]
    exact List.mem_append.2 hu

/-- What is read belongs to a function that a call leads to. -/
theorem exists_reaches_of_mem_callReads {n : Nat} {u : VarUse} (h : u ∈ t.callReads n visiting e) :
    ∃ key f, t.Reaches e key f ∧ u ∈ f.bodyReads := by
  induction n generalizing visiting e with
  | zero => cases h
  | succ n ih =>
    obtain ⟨key, f, hcall, -, hf, hu | hu⟩ := mem_callReads_succ.1 h
    · exact ⟨key, f, .call hcall hf, hu⟩
    · obtain ⟨callee, g, hg, hu⟩ := ih hu
      exact ⟨callee, g, hg.of_body hcall hf, hu⟩

/-- With as many levels as there are functions left, no function is missed. -/
theorem mem_callReads_of_avoids {n : Nat} {u : VarUse} (hn : (t.remaining visiting).length ≤ n)
    (h : t.Avoids visiting e callee g) (hu : u ∈ g.bodyReads) : u ∈ t.callReads n visiting e := by
  induction n generalizing visiting e with
  | zero =>
    obtain ⟨key, f, -, hnew, hf, -⟩ := h.exists_first
    have := length_remaining_cons hf hnew
    omega
  | succ n ih =>
    obtain ⟨key, f, hcall, hnew, hf, hchain⟩ := h.exists_first
    refine mem_callReads_succ.2 ⟨key, f, hcall, hnew, hf, ?_⟩
    rcases hchain with rfl | hchain
    · obtain rfl : f = g := Option.some.inj (hf.symm.trans h.getElem?)
      exact .inl hu
    · have := length_remaining_cons hf hnew
      exact .inr (ih (by omega) hchain)

/-- More levels than there are functions left make no difference. -/
theorem callReads_add {n : Nat} (hn : (t.remaining visiting).length ≤ n) (more : Nat) :
    t.callReads (n + more) visiting e = t.callReads n visiting e := by
  induction n generalizing visiting e with
  | zero =>
    rcases more with _ | more
    · rfl
    rw [callReads, Nat.zero_add, callReads, List.flatMap_eq_nil_iff]
    intro sub _
    split
    next name _ =>
      split_ifs with hold
      · rfl
      · split
        next f hf =>
          have := length_remaining_cons hf (by simpa using hold)
          omega
        next => rfl
    next => rfl
  | succ n ih =>
    rw [Nat.add_right_comm, callReads, callReads]
    congr 1
    funext sub
    split
    next name _ =>
      split_ifs with hold
      · rfl
      · split
        next f hf =>
          have := length_remaining_cons hf (by simpa using hold)
          rw [ih (by omega)]
        next => rfl
    next => rfl

/-! ## Expressions -/

/-- The subexpression itself reads the scalar, not one of its operands. -/
def ReadsHere (t : SymbolTable) (key : String) : Expr Float → Prop
  | .scalar name => name.key = key
  | .call name _ => key ∈ (t.functionReads name.key).map VarUse.name
  | _ => False

mutual

theorem mem_exprReads (context : UseContext) : (e : Expr Float) →
    (key ∈ (t.exprReads context e).map VarUse.name ↔ ∃ sub ∈ e.subterms, t.ReadsHere key sub)
  | .number .. | .string _ => by simp [exprReads, Expr.subterms, ReadsHere]
  | .scalar name => by simp [exprReads, Expr.subterms, ReadsHere, eq_comm]
  | .element _ subscripts => by
    simpa [exprReads, Expr.subterms, ReadsHere] using mem_exprReadsOfList .subscript subscripts
  | .unary _ operand => by
    simpa [exprReads, Expr.subterms, ReadsHere] using mem_exprReads context operand
  | .binary _ left right => by
    rw [exprReads, List.map_append, List.mem_append, mem_exprReads context left,
      mem_exprReads context right]
    simp [Expr.subterms, ReadsHere, or_and_right, exists_or]
  | .intrinsic _ args => by
    simpa [exprReads, Expr.subterms, ReadsHere] using mem_exprReadsOfList context args
  | .call name args => by
    rw [exprReads, List.map_append, List.mem_append, mem_exprReadsOfList .argument args,
      or_comm]
    simp [Expr.subterms, ReadsHere]

theorem mem_exprReadsOfList (context : UseContext) : (es : List (Expr Float)) →
    (key ∈ (t.exprReadsOfList context es).map VarUse.name ↔
      ∃ sub ∈ Expr.subtermsOfList es, t.ReadsHere key sub)
  | [] => by simp [exprReadsOfList, Expr.subtermsOfList]
  | e :: rest => by
    rw [exprReadsOfList, List.map_append, List.mem_append, mem_exprReads context e,
      mem_exprReadsOfList context rest]
    simp [Expr.subtermsOfList, or_and_right, exists_or]

end

theorem exists_readsHere : (∃ sub ∈ e.subterms, t.ReadsHere key sub) ↔
    e.Mentions key ∨ ∃ callee, e.Calls callee ∧ key ∈ (t.functionReads callee).map VarUse.name := by
  constructor
  · rintro ⟨sub, hsub, hkey⟩
    cases sub with
    | scalar name => exact .inl ⟨name, hsub, hkey⟩
    | call name args => exact .inr ⟨name.key, ⟨name, args, hsub, rfl⟩, hkey⟩
    | _ => exact absurd hkey id
  · rintro (⟨name, hsub, hkey⟩ | ⟨_, ⟨name, args, hsub, rfl⟩, hkey⟩)
    · exact ⟨_, hsub, hkey⟩
    · exact ⟨_, hsub, hkey⟩

/-- A call of a defined function reads what the functions have free that it leads to. -/
theorem exists_calls_iff :
    (∃ callee, e.Calls callee ∧ key ∈ (t.functionReads callee).map VarUse.name) ↔
      ∃ callee f, t.Reaches e callee f ∧ key ∈ f.freeVariables := by
  simp only [List.mem_map, ← FunctionInfo.exists_mem_bodyReads]
  constructor
  · rintro ⟨callee, hcall, u, hu, hname⟩
    rw [functionReads] at hu
    cases hf : t.functions[callee]? with
    | none => simp [hf] at hu
    | some f =>
      rw [hf] at hu
      rcases List.mem_append.1 hu with hu | hu
      · exact ⟨callee, f, .call hcall hf, u, hu, hname⟩
      · obtain ⟨k, g, hg, hu⟩ := exists_reaches_of_mem_callReads hu
        exact ⟨k, g, hg.of_body hcall hf, u, hu, hname⟩
  · rintro ⟨k, g, hg, u, hu, hname⟩
    obtain ⟨callee, f, hcall, -, hf, hchain⟩ := hg.avoids_nil.exists_first
    refine ⟨callee, hcall, u, ?_, hname⟩
    rw [functionReads, hf, List.mem_append]
    rcases hchain with rfl | hchain
    · obtain rfl : f = g := Option.some.inj (hf.symm.trans hg.avoids_nil.getElem?)
      exact .inl hu
    · exact .inr (mem_callReads_of_avoids (t.length_remaining_le _) hchain hu)

/-- The scalars that an expression reads are those that it mentions and those that are free in a
function that a call in it leads to. -/
theorem mem_exprReads_iff (context : UseContext) :
    key ∈ (t.exprReads context e).map VarUse.name ↔
      e.Mentions key ∨ ∃ callee f, t.Reaches e callee f ∧ key ∈ f.freeVariables := by
  rw [mem_exprReads, exists_readsHere, exists_calls_iff]

/--
Reading is complete. However deeply the functions are nested, the bound on the levels is never
reached. And the scalars that an expression reads are exactly those that occur in it, in arguments
and subscripts as well, and those that occur in the body of a function without being parameters of
it, for all functions that a call in the expression leads to through any number of bodies.
-/
theorem exprReads_complete (t : SymbolTable) (e : Expr Float) (context : UseContext) :
    (∀ visiting more, t.callReads (t.functions.size + more) visiting e =
      t.callReads t.functions.size visiting e) ∧
    ∀ key, key ∈ (t.exprReads context e).map VarUse.name ↔
      e.Mentions key ∨
        ∃ callee f, t.Reaches e callee f ∧ f.body.Mentions key ∧ key ∉ f.parameters := by
  refine ⟨fun visiting more => callReads_add (t.length_remaining_le visiting) more, fun key => ?_⟩
  rw [mem_exprReads_iff]
  simp only [FunctionInfo.mem_freeVariables]

end SymbolTable
end LineBasic
