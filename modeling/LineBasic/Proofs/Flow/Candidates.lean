import LineBasic.Flow.AvailableExpressions
import LineBasic.Proofs.Flow.Effects

/-!
# Candidates and their sites

The candidates of a node are subexpressions of what the node evaluates (`evaluatedAt_of_keyAt`). A
key reads what the first candidate with it reads (`CandidateTable.getElem?_reads_build`). To compute
candidates adds sites of the node to the facts and takes nothing away (`Computed.compute`).
-/

namespace LineBasic

/-! ## The expressions behind candidates -/

namespace Candidate

variable {t : SymbolTable} {x : Candidate} {e : Expr Float} {inner : List Candidate}

theorem mem_addTo_iff :
    x ∈ addTo t e inner ↔ isWorthwhile e ∧ x = ofExpr t e inner.length ∨ x ∈ inner := by
  rw [addTo]
  by_cases h : isWorthwhile e <;> simp [h]

/-- The candidate stands for one of the expressions. -/
def IsFrom (t : SymbolTable) (es : List (Expr Float)) (x : Candidate) : Prop :=
  ∃ e ∈ es, ∃ inner, x = ofExpr t e inner

theorem IsFrom.mono {es es' : List (Expr Float)} (h : IsFrom t es x) (hes : es ⊆ es') :
    IsFrom t es' x :=
  h.imp fun _ he => ⟨hes he.1, he.2⟩

theorem isFrom_of_mem_addTo {below : List (Expr Float)} (hinner : ∀ x ∈ inner, IsFrom t below x)
    (hx : x ∈ addTo t e inner) : IsFrom t (e :: below) x := by
  rcases mem_addTo_iff.1 hx with ⟨-, rfl⟩ | hx
  · exact ⟨e, List.mem_cons_self, _, rfl⟩
  · exact (hinner x hx).mono (List.subset_cons_self ..)

mutual

theorem isFrom_of_mem_ofTree :
    ∀ {e : Expr Float} {x : Candidate}, x ∈ ofTree t e → IsFrom t e.subterms x
  | .number .., _, h | .string _, _, h | .scalar _, _, h => by simp [ofTree] at h
  | .element .., _, h | .intrinsic .., _, h | .call .., _, h => by
    rw [Expr.subterms]
    exact isFrom_of_mem_addTo (fun _ => isFrom_of_mem_ofTrees) h
  | .unary .., _, h => by
    rw [Expr.subterms]
    exact isFrom_of_mem_addTo (fun _ => isFrom_of_mem_ofTree) h
  | .binary _ left right, _, h => by
    rw [Expr.subterms]
    refine isFrom_of_mem_addTo (fun x hx => ?_) h
    rcases List.mem_append.1 hx with hx | hx
    · exact (isFrom_of_mem_ofTree hx).mono (List.subset_append_left ..)
    · exact (isFrom_of_mem_ofTree hx).mono (List.subset_append_right ..)

theorem isFrom_of_mem_ofTrees :
    ∀ {es : List (Expr Float)} {x : Candidate},
      x ∈ ofTrees t es → IsFrom t (Expr.subtermsOfList es) x
  | [], _, h => by simp [ofTrees] at h
  | e :: rest, _, h => by
    rw [Expr.subtermsOfList]
    rcases List.mem_append.1 h with hx | hx
    · exact (isFrom_of_mem_ofTree hx).mono (List.subset_append_left ..)
    · exact (isFrom_of_mem_ofTrees hx).mono (List.subset_append_right ..)

end

end Candidate

/-- The node evaluates an expression with the key. -/
def EvaluatedAt (effects : Array Effects) (t : SymbolTable) (id : NodeId) (key : String) : Prop :=
  ∃ fx, effects[id]? = some fx ∧ ∃ root ∈ fx.roots, ∃ e ∈ root.subterms,
    (Candidate.ofExpr t e 0).key = key

namespace CandidateTable

/-- The candidate at the site has the key. -/
def KeyAt (c : CandidateTable) (site : Site) (key : String) : Prop :=
  ∃ x, c.candidate? site = some x ∧ x.key = key

/-- The first candidate of the program with the key. -/
def first? (c : CandidateTable) (key : String) : Option Candidate :=
  c.candidates.toList.flatten.find? fun x => x.key == key

/-- The node writes something that the key is known to read. -/
def KilledAt (c : CandidateTable) (id : NodeId) (key : String) : Prop :=
  ∃ tag ∈ (c.kills[id]?).getD [], ∃ reads, c.reads[key]? = some reads ∧ tag ∈ reads

/-- What the first candidate with a key reads counts for all. -/
def KeyReads (c : CandidateTable) (key tag : String) : Prop :=
  ∃ x, c.first? key = some x ∧ tag ∈ x.reads

section Build

variable {effects : Array Effects} {t : SymbolTable} {id : NodeId} {key : String}

theorem evaluatedAt_of_keyAt {site : Site} (h : (build effects t).KeyAt site key) :
    EvaluatedAt effects t site.1 key := by
  obtain ⟨x, hx, rfl⟩ := h
  have hmem := List.mem_of_getElem? hx
  rw [ofNode, build, Array.getElem?_map] at hmem
  rcases hfx : effects[site.1]? with _ | fx <;> rw [hfx] at hmem
  · cases hmem
  · obtain ⟨e, he, inner, rfl⟩ := Candidate.isFrom_of_mem_ofTrees hmem
    rw [Expr.subtermsOfList_eq_flatMap, List.mem_flatMap] at he
    obtain ⟨root, hroot, he⟩ := he
    exact ⟨fx, hfx, root, hroot, e, he, rfl⟩

theorem getElem?_foldl_insertIfNew (list : List Candidate)
    (m : Std.ExtTreeMap String (Std.ExtTreeSet String)) :
    (list.foldl (fun m x => m.insertIfNew x.key x.reads) m)[key]? =
      (m[key]?).or ((list.find? fun x => x.key == key).map Candidate.reads) := by
  induction list generalizing m with
  | nil => simp
  | cons x list ih =>
    rw [List.foldl_cons, ih, Std.ExtTreeMap.getElem?_insertIfNew, List.find?_cons]
    by_cases hkey : x.key = key
    · obtain rfl := hkey
      rcases hm : m[x.key]? with _ | reads <;> simp [Std.ExtTreeMap.mem_iff_isSome_getElem?, hm]
    · simp [hkey, beq_eq_false_iff_ne.2 hkey]

theorem getElem?_reads_build :
    (build effects t).reads[key]? = ((build effects t).first? key).map Candidate.reads := by
  rw [first?, build, getElem?_foldl_insertIfNew]
  simp

theorem killedAt_build_iff :
    (build effects t).KilledAt id key ↔
      ∃ tag, WritesTagAt effects id tag ∧ (build effects t).KeyReads key tag := by
  have kills : (build effects t).kills[id]? = (effects[id]?).map Effects.writtenTags := by
    rw [build, Array.getElem?_map]
  simp only [KilledAt, KeyReads, WritesTagAt, kills, getElem?_reads_build, Option.map_eq_some_iff]
  rcases effects[id]? with _ | fx
  · simp
  · simp only [Option.map_some, Option.getD_some, Option.some.injEq, exists_eq_left']
    constructor
    · rintro ⟨tag, htag, reads, ⟨x, hx, rfl⟩, hreads⟩
      exact ⟨tag, htag, x, hx, hreads⟩
    · rintro ⟨tag, htag, x, hx, hreads⟩
      exact ⟨tag, htag, x.reads, ⟨x, hx, rfl⟩, hreads⟩

end Build

/-! ## Candidates that are computed -/

variable {c : CandidateTable} {id : NodeId}

/--
The second fact comes from the first one by computing candidates of a node at positions below `n`.
-/
structure Computed (c : CandidateTable) (id : NodeId) (n : Nat) (fact fact' : AvailableSet) :
    Prop where
  keeps : ∀ {key : String} {sites}, fact[key]? = some sites →
    ∃ sites', fact'[key]? = some sites' ∧ ∀ s ∈ sites, s ∈ sites'
  adds : ∀ {key : String} {sites'}, fact'[key]? = some sites' → ∀ s ∈ sites',
    (∃ sites, fact[key]? = some sites ∧ s ∈ sites) ∨ (s.1 = id ∧ s.2 < n ∧ c.KeyAt s key)
  fresh : ∀ {key : String} {sites'}, fact'[key]? = some sites' → fact[key]? = none →
    ∃ s ∈ sites', s.1 = id ∧ s.2 < n ∧ c.KeyAt s key

variable {fact fact' : AvailableSet} {n : Nat}

theorem Computed.refl : c.Computed id 0 fact fact where
  keeps h := ⟨_, h, fun _ hs => hs⟩
  adds h _ hs := .inl ⟨_, h, hs⟩
  fresh h hnone := by
    rw [hnone] at h
    cases h

theorem Computed.mono (h : c.Computed id n fact fact') : c.Computed id (n + 1) fact fact' where
  keeps := h.keeps
  adds hkey s hs := (h.adds hkey s hs).imp_right fun hnew =>
    ⟨hnew.1, Nat.lt_succ_of_lt hnew.2.1, hnew.2.2⟩
  fresh hkey hnone := by
    obtain ⟨s, hs, hid, hlt, hkeyAt⟩ := h.fresh hkey hnone
    exact ⟨s, hs, hid, Nat.lt_succ_of_lt hlt, hkeyAt⟩

/-- One more candidate is computed, at position `n`. -/
theorem Computed.insert (h : c.Computed id n fact fact') {x : Candidate}
    (hx : c.candidate? (id, n) = some x) {old : Std.ExtTreeSet Site}
    (hold : (fact'[x.key]?).getD ∅ = old) :
    c.Computed id (n + 1) fact (fact'.insert x.key (old.insert (id, n))) where
  keeps {key sites} hkey := by
    obtain ⟨sites', hsites', hsub⟩ := h.keeps hkey
    by_cases hxk : x.key = key
    · obtain rfl := hxk
      obtain rfl : sites' = old := by simpa [hsites'] using hold
      exact ⟨_, Std.ExtTreeMap.getElem?_insert_self, fun s hs =>
        Std.ExtTreeSet.mem_insert.2 (.inr (hsub s hs))⟩
    · exact ⟨sites', by simp [Std.ExtTreeMap.getElem?_insert, hxk, hsites'], hsub⟩
  adds {key sites'} hkey s hs := by
    by_cases hxk : x.key = key
    · obtain rfl := hxk
      obtain rfl : old.insert (id, n) = sites' := by simpa using hkey
      rcases Std.ExtTreeSet.mem_insert.1 hs with heq | hs
      · obtain rfl := Std.LawfulEqCmp.eq_of_compare heq
        exact .inr ⟨rfl, Nat.lt_succ_self n, x, hx, rfl⟩
      · rcases hfact' : fact'[x.key]? with _ | sites
        · simp [hfact', ← hold] at hs
        · obtain rfl : sites = old := by simpa [hfact'] using hold
          exact h.mono.adds hfact' s hs
    · exact h.mono.adds (by simpa [Std.ExtTreeMap.getElem?_insert, hxk] using hkey) s hs
  fresh {key sites'} hkey hnone := by
    by_cases hxk : x.key = key
    · obtain rfl := hxk
      obtain rfl : old.insert (id, n) = sites' := by simpa using hkey
      exact ⟨(id, n), by simp, rfl, Nat.lt_succ_self n, x, hx, rfl⟩
    · exact h.mono.fresh (by simpa [Std.ExtTreeMap.getElem?_insert, hxk] using hkey) hnone

/-- The recomputation was found among the candidates of a node, `fact` being known before it. -/
structure FoundAt (c : CandidateTable) (id : NodeId) (fact : AvailableSet) (r : Recomputation) :
    Prop where
  node : r.site.1 = id
  keyAt : c.KeyAt r.site r.key
  available : ∃ fact', c.Computed id r.site.2 fact fact' ∧ fact'[r.key]? = some r.available

theorem Computed.compute (rest : List Candidate) (skip : Nat) (h : c.Computed id n fact fact')
    (hrest : (c.ofNode id).drop n = rest) :
    c.Computed id (n + rest.length) fact (compute id skip n rest fact').1 ∧
      ∀ r ∈ (compute id skip n rest fact').2, c.FoundAt id fact r := by
  induction rest generalizing skip n fact' with
  | nil => exact ⟨h, List.forall_mem_nil _⟩
  | cons x rest ih =>
    have hx : c.candidate? (id, n) = some x := by
      have := congrArg List.head? hrest
      rwa [List.head?_drop, List.head?_cons] at this
    have hdrop : (c.ofNode id).drop (n + 1) = rest := by
      have := congrArg List.tail hrest
      rwa [List.tail_drop, List.tail_cons] at this
    rw [List.length_cons, ← Nat.add_assoc, Nat.add_right_comm]
    match skip with
    | skip + 1 =>
      rw [CandidateTable.compute]
      exact ih skip h.mono hdrop
    | 0 =>
      rw [CandidateTable.compute]
      split
      next sites hsites =>
        have inserted := h.insert hx (by rw [hsites, Option.getD_some])
        obtain ⟨hfact, hfound⟩ := ih (x.span - 1) inserted hdrop
        refine ⟨hfact, List.forall_mem_cons.2 ⟨⟨rfl, ⟨x, hx, rfl⟩, fact', h, hsites⟩, hfound⟩⟩
      next hnone =>
        exact ih 0 (h.insert hx (by rw [hnone, Option.getD_none])) hdrop

end CandidateTable
end LineBasic
