import LineBasic.Proofs.Flow.Termination

/-!
# The facts at a node

A node has one fact for each call string under which it is reached, and the solution has the meet of
them. A property that a meet has if and only if both facts have it is looked up in these facts one
by one (`Distributes.before_iff`).
-/

namespace LineBasic
namespace ForwardAnalysis

variable {φ : Type} {a : ForwardAnalysis φ} {Q : φ → Prop} {n : NodeId}

/-- A meet has the property if and only if both facts have it. -/
def Distributes (a : ForwardAnalysis φ) (Q : φ → Prop) : Prop :=
  ∀ x y, Q (a.meet x y) ↔ Q x ∧ Q y

theorem isSome_foldl_mergeFact (facts : List (ContextNode × φ)) (merged : Std.ExtTreeMap NodeId φ) :
    (facts.foldl a.mergeFact merged)[n]?.isSome ↔
      merged[n]?.isSome ∨ ∃ calls I, ((n, calls), I) ∈ facts := by
  induction facts generalizing merged with
  | nil => simp
  | cons entry facts ih =>
    obtain ⟨⟨id, calls⟩, I⟩ := entry
    rw [List.foldl_cons, ih, mergeFact, Std.ExtTreeMap.getElem?_alter]
    by_cases hid : id = n
    · obtain rfl := hid
      simp only [Std.compare_self, if_true, Option.isSome_some, true_or, true_iff]
      exact .inr ⟨calls, I, List.mem_cons_self⟩
    · simp [hid, Ne.symm hid]

theorem Distributes.foldl_mergeFact (hQ : a.Distributes Q) (facts : List (ContextNode × φ))
    (merged : Std.ExtTreeMap NodeId φ) :
    (∀ F ∈ (facts.foldl a.mergeFact merged)[n]?, Q F) ↔
      (∀ F ∈ merged[n]?, Q F) ∧ ∀ calls I, ((n, calls), I) ∈ facts → Q I := by
  induction facts generalizing merged with
  | nil => simp
  | cons entry facts ih =>
    obtain ⟨⟨id, calls⟩, I⟩ := entry
    have step : (∀ F ∈ (a.mergeFact merged ((id, calls), I))[n]?, Q F) ↔
        (∀ F ∈ merged[n]?, Q F) ∧ (id = n → Q I) := by
      rw [mergeFact, Std.ExtTreeMap.getElem?_alter]
      by_cases hid : id = n
      · obtain rfl := hid
        rcases merged[id]? with _ | F
        · simp
        · simp [hQ F I]
      · simp [hid]
    rw [List.foldl_cons, ih, step, and_assoc]
    refine and_congr_right fun _ => ⟨fun h calls' J hJ => ?_, fun h => ⟨?_, fun calls' J hJ => ?_⟩⟩
    · rcases List.mem_cons.1 hJ with heq | hmem
      · cases heq
        exact h.1 rfl
      · exact h.2 calls' J hmem
    · rintro rfl
      exact h calls I List.mem_cons_self
    · exact h calls' J (List.mem_cons_of_mem _ hJ)

/-- A property that meets keep holds of all merged facts. -/
theorem forall_foldl_mergeFact (hQ : ∀ {x y}, Q x → Q y → Q (a.meet x y))
    (facts : List (ContextNode × φ)) (merged : Std.ExtTreeMap NodeId φ)
    (hmerged : ∀ F ∈ merged[n]?, Q F) (hfacts : ∀ entry ∈ facts, Q entry.2) :
    ∀ F ∈ (facts.foldl a.mergeFact merged)[n]?, Q F := by
  induction facts generalizing merged with
  | nil => exact hmerged
  | cons entry facts ih =>
    rw [List.forall_mem_cons] at hfacts
    refine ih _ (fun F hF => ?_) hfacts.2
    rw [mergeFact, Std.ExtTreeMap.getElem?_alter] at hF
    by_cases hid : entry.1.1 = n
    · obtain rfl := hid
      rw [Std.compare_self, if_pos rfl, Option.mem_some] at hF
      rw [← hF]
      rcases hold : merged[entry.1.1]? with _ | old
      · exact hfacts.1
      · exact hQ (hmerged old hold) hfacts.1
    · exact hmerged F (by simpa [hid] using hF)

theorem isSome_overContexts (facts : Std.ExtTreeMap ContextNode φ) :
    (a.overContexts facts)[n]?.isSome ↔ ∃ calls I, facts[((n, calls) : ContextNode)]? = some I := by
  have h := isSome_foldl_mergeFact (a := a) (n := n) facts.toList ∅
  simpa [overContexts, Std.ExtTreeMap.mem_toList_iff_getElem?_eq_some] using h

theorem Distributes.overContexts (hQ : a.Distributes Q) (facts : Std.ExtTreeMap ContextNode φ) :
    (∀ F ∈ (a.overContexts facts)[n]?, Q F) ↔
      ∀ calls I, facts[((n, calls) : ContextNode)]? = some I → Q I := by
  have h := hQ.foldl_mergeFact (n := n) facts.toList ∅
  simpa [ForwardAnalysis.overContexts, Std.ExtTreeMap.mem_toList_iff_getElem?_eq_some] using h

variable [BEq φ] {g : Graph}

theorem isSome_before :
    (a.solve g).before[n]?.isSome ↔
      ∃ calls I, (a.fixpoint g).inputs[((n, calls) : ContextNode)]? = some I :=
  isSome_overContexts _

theorem Distributes.before_iff (hQ : a.Distributes Q) {F : φ}
    (hF : (a.solve g).before[n]? = some F) :
    Q F ↔ ∀ calls I, (a.fixpoint g).inputs[((n, calls) : ContextNode)]? = some I → Q I := by
  have h := hQ.overContexts (n := n) (a.fixpoint g).inputs
  have hF' : (a.overContexts (a.fixpoint g).inputs)[n]? = some F := hF
  simpa [hF'] using h

/-- What all operations of the iteration and the merging keep holds in the solution. -/
theorem Kept.before [LawfulBEq φ] (hQ : a.Kept g fun _ I => Q I) {F : φ}
    (hF : (a.solve g).before[n]? = some F) : Q F := by
  refine forall_foldl_mergeFact (fun hx hy => hQ.meet (k := (n, [])) hx hy)
    (a.fixpoint g).inputs.toList ∅ (by simp) (fun entry hentry => ?_) F hF
  exact hQ.fixpoint _ _ (Std.ExtTreeMap.mem_toList_iff_getElem?_eq_some.1 hentry)

/-! ## The nodes that have facts -/

variable [LawfulBEq φ]

omit [BEq φ] [LawfulBEq φ] in
theorem kept_contextPath (a : ForwardAnalysis φ) (g : Graph) :
    a.Kept g fun c _ => ∃ past, g.ContextPath (c :: past) where
  entry := ⟨[], .start⟩
  step := fun ⟨past, hpath⟩ hkt => ⟨_ :: past, hpath.step hkt⟩
  meet hI _ := hI

/-- A node has a fact if and only if some path under call strings leads to it. -/
theorem Bounded.isSome_before_iff {Valid : φ → Prop} {rank : φ → Nat} (h : a.Bounded Valid rank)
    (ha : a.Lawful) (hg : g.WellFormed) :
    (a.solve g).before[n]?.isSome ↔ ∃ calls past, g.ContextPath ((n, calls) :: past) := by
  rw [isSome_before]
  constructor
  · rintro ⟨calls, I, hI⟩
    exact ⟨calls, (kept_contextPath a g).fixpoint _ I hI⟩
  · rintro ⟨calls, past, hpath⟩
    have always : a.Sound g fun _ _ => True := ⟨fun _ => trivial, fun _ _ _ => trivial⟩
    obtain ⟨I, hI, -⟩ := (h.stable ha hg).sound always hpath
    exact ⟨calls, I, hI⟩

end ForwardAnalysis
end LineBasic
