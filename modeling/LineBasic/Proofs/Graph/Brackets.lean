import LineBasic.Proofs.Graph.LoopMatching
import LineBasic.Proofs.Graph.Numbering

/-!
# Bracketed loops

A program is well bracketed if its `FOR`, `WHILE`, `WEND` and `NEXT` are brackets of two kinds, each
pair with a well-bracketed program between (`Bracketed`). Such programs are just those whose loops
are matched without an issue, and the loops are then the pairs of brackets
(`Program.bracketed_iff`). In between stands `Closes`, which says the same of what is left of a
program while loops are open.
-/

namespace LineBasic

/-- A bracket of a loop. -/
inductive LoopToken where
  | forLoop (node : NodeId) (counter : String)
  | whileLoop (node : NodeId)
  | wend (node : NodeId)
  /-- A `NEXT`, for one counter or for whichever there is. -/
  | next (node : NodeId) (counter : Option String)

/-- The brackets of a statement; a `NEXT` for several counters is one for each of them. -/
def Statement.loopTokens (id : NodeId) (s : Statement) : List LoopToken :=
  match s.command? with
  | some (.forLoop counter ..) => [.forLoop id counter.key]
  | some (.whileLoop _) => [.whileLoop id]
  | some .wend => [.wend id]
  | some (.next []) => [.next id none]
  | some (.next counters) => counters.map fun name => .next id (some name.key)
  | _ => []

/-- The brackets of a program; its statements are numbered from 2 in the order of the text. -/
def Program.loopTokens (p : Program) : List LoopToken :=
  (p.allStatements.zipIdx 2).flatMap fun (s, id) => s.loopTokens id

/-- A sequence of brackets is well bracketed, with the pairs of either kind in the order in which
they are closed. -/
inductive Bracketed : List LoopToken → List ForLoop → List WhileLoop → Prop
  | nil : Bracketed [] [] []
  | forLoop {node id : NodeId} {counter : String} {name : Option String}
      {body rest : List LoopToken} {fors fors' : List ForLoop} {whiles whiles' : List WhileLoop} :
      (∀ c ∈ name, c = counter) → Bracketed body fors whiles → Bracketed rest fors' whiles' →
      Bracketed (.forLoop node counter :: (body ++ .next id name :: rest))
        (fors ++ ⟨node, id, counter⟩ :: fors') (whiles ++ whiles')
  | whileLoop {node id : NodeId}
      {body rest : List LoopToken} {fors fors' : List ForLoop} {whiles whiles' : List WhileLoop} :
      Bracketed body fors whiles → Bracketed rest fors' whiles' →
      Bracketed (.whileLoop node :: (body ++ .wend id :: rest))
        (fors ++ fors') (whiles ++ ⟨node, id⟩ :: whiles')

/-- The brackets close the open loops and those that are opened among them, each `WEND` and each
`NEXT` the innermost one. -/
inductive Closes : List OpenLoop → List LoopToken → List ForLoop → List WhileLoop → Prop
  | nil : Closes [] [] [] []
  | forLoop {opened : List OpenLoop} {node : NodeId} {counter : String} {rest : List LoopToken}
      {fors : List ForLoop} {whiles : List WhileLoop} :
      Closes (.forLoop node counter :: opened) rest fors whiles →
      Closes opened (.forLoop node counter :: rest) fors whiles
  | whileLoop {opened : List OpenLoop} {node : NodeId} {rest : List LoopToken}
      {fors : List ForLoop} {whiles : List WhileLoop} :
      Closes (.whileLoop node :: opened) rest fors whiles →
      Closes opened (.whileLoop node :: rest) fors whiles
  | wend {outer : List OpenLoop} {node id : NodeId} {rest : List LoopToken}
      {fors : List ForLoop} {whiles : List WhileLoop} :
      Closes outer rest fors whiles →
      Closes (.whileLoop node :: outer) (.wend id :: rest) fors (⟨node, id⟩ :: whiles)
  | next {outer : List OpenLoop} {node id : NodeId} {counter : String} {name : Option String}
      {rest : List LoopToken} {fors : List ForLoop} {whiles : List WhileLoop} :
      (∀ c ∈ name, c = counter) → Closes outer rest fors whiles →
      Closes (.forLoop node counter :: outer) (.next id name :: rest)
        (⟨node, id, counter⟩ :: fors) whiles

/-! ## The two descriptions of well-bracketed programs -/

variable {tokens rest : List LoopToken} {opened : List OpenLoop} {fors fors' : List ForLoop}
  {whiles whiles' : List WhileLoop}

theorem Bracketed.append (h : Bracketed tokens fors whiles) (h' : Bracketed rest fors' whiles') :
    Bracketed (tokens ++ rest) (fors ++ fors') (whiles ++ whiles') := by
  induction h with
  | nil => exact h'
  | forLoop hname hbody _ _ ih =>
    simp only [List.cons_append, List.append_assoc]
    exact .forLoop hname hbody ih
  | whileLoop hbody _ _ ih =>
    simp only [List.cons_append, List.append_assoc]
    exact .whileLoop hbody ih

/-- Well-bracketed loops leave the loops around them open. -/
theorem Bracketed.closes (h : Bracketed tokens fors whiles) (h' : Closes opened rest fors' whiles') :
    Closes opened (tokens ++ rest) (fors ++ fors') (whiles ++ whiles') := by
  induction h generalizing opened rest fors' whiles' with
  | nil => exact h'
  | forLoop hname _ _ ihbody ihrest =>
    simp only [List.cons_append, List.append_assoc]
    exact .forLoop (ihbody (.next hname (ihrest h')))
  | whileLoop _ _ ihbody ihrest =>
    simp only [List.cons_append, List.append_assoc]
    exact .whileLoop (ihbody (.wend (ihrest h')))

/-- The brackets after those that close the open loops, and between them, are well bracketed. -/
inductive ClosesBetween : List OpenLoop → List LoopToken → List ForLoop → List WhileLoop → Prop
  | nil {tokens : List LoopToken} {fors : List ForLoop} {whiles : List WhileLoop} :
      Bracketed tokens fors whiles → ClosesBetween [] tokens fors whiles
  | forLoop {outer : List OpenLoop} {node id : NodeId} {counter : String} {name : Option String}
      {body rest : List LoopToken} {fors fors' : List ForLoop} {whiles whiles' : List WhileLoop} :
      (∀ c ∈ name, c = counter) → Bracketed body fors whiles →
      ClosesBetween outer rest fors' whiles' →
      ClosesBetween (.forLoop node counter :: outer) (body ++ .next id name :: rest)
        (fors ++ ⟨node, id, counter⟩ :: fors') (whiles ++ whiles')
  | whileLoop {outer : List OpenLoop} {node id : NodeId}
      {body rest : List LoopToken} {fors fors' : List ForLoop} {whiles whiles' : List WhileLoop} :
      Bracketed body fors whiles → ClosesBetween outer rest fors' whiles' →
      ClosesBetween (.whileLoop node :: outer) (body ++ .wend id :: rest)
        (fors ++ fors') (whiles ++ ⟨node, id⟩ :: whiles')

theorem ClosesBetween.prepend (h : ClosesBetween opened rest fors' whiles')
    (htokens : Bracketed tokens fors whiles) :
    ClosesBetween opened (tokens ++ rest) (fors ++ fors') (whiles ++ whiles') := by
  cases h with
  | nil hrest => exact .nil (htokens.append hrest)
  | forLoop hname hbody hrest =>
    simp only [← List.append_assoc]
    exact .forLoop hname (htokens.append hbody) hrest
  | whileLoop hbody hrest =>
    simp only [← List.append_assoc]
    exact .whileLoop (htokens.append hbody) hrest

/-- A loop that is opened and closed before all open ones. -/
theorem ClosesBetween.prependFor {node id : NodeId} {counter : String} {name : Option String}
    (hname : ∀ c ∈ name, c = counter) (hbody : Bracketed tokens fors whiles)
    (h : ClosesBetween opened rest fors' whiles') :
    ClosesBetween opened (.forLoop node counter :: (tokens ++ .next id name :: rest))
      (fors ++ ⟨node, id, counter⟩ :: fors') (whiles ++ whiles') := by
  have hpair : Bracketed (.forLoop node counter :: (tokens ++ [.next id name]))
      (fors ++ [⟨node, id, counter⟩]) (whiles ++ []) := .forLoop hname hbody .nil
  simpa using h.prepend hpair

theorem ClosesBetween.prependWhile {node id : NodeId} (hbody : Bracketed tokens fors whiles)
    (h : ClosesBetween opened rest fors' whiles') :
    ClosesBetween opened (.whileLoop node :: (tokens ++ .wend id :: rest))
      (fors ++ fors') (whiles ++ ⟨node, id⟩ :: whiles') := by
  have hpair : Bracketed (.whileLoop node :: (tokens ++ [.wend id])) (fors ++ [])
      (whiles ++ [⟨node, id⟩]) := .whileLoop hbody .nil
  simpa using h.prepend hpair

theorem Closes.closesBetween (h : Closes opened tokens fors whiles) :
    ClosesBetween opened tokens fors whiles := by
  induction h with
  | nil => exact .nil .nil
  | forLoop _ ih =>
    -- the loop is the innermost one, so what comes before its end is well bracketed
    cases ih with
    | forLoop hname hbody hrest => exact hrest.prependFor hname hbody
  | whileLoop _ ih =>
    cases ih with
    | whileLoop hbody hrest => exact hrest.prependWhile hbody
  | wend _ ih => exact .whileLoop .nil ih
  | next hname _ ih => exact .forLoop hname .nil ih

theorem closes_nil_iff : Closes [] tokens fors whiles ↔ Bracketed tokens fors whiles := by
  constructor
  · intro h
    cases h.closesBetween with
    | nil h => exact h
  · intro h
    simpa using h.closes .nil

/-! ## Matching without an issue -/

theorem closes_forLoop_iff {id : NodeId} {counter : String} :
    Closes opened (.forLoop id counter :: rest) fors whiles ↔
      Closes (.forLoop id counter :: opened) rest fors whiles :=
  ⟨fun | .forLoop h => h, .forLoop⟩

theorem closes_whileLoop_iff {id : NodeId} :
    Closes opened (.whileLoop id :: rest) fors whiles ↔
      Closes (.whileLoop id :: opened) rest fors whiles :=
  ⟨fun | .whileLoop h => h, .whileLoop⟩

namespace LoopMatching

variable {m m' : LoopMatching}

/-- The brackets close all loops, with no issue so far, and the matching is then `m'`. -/
def Completes (m : LoopMatching) (tokens : List LoopToken) (m' : LoopMatching) : Prop :=
  m.issues = [] ∧ ∃ fors whiles, Closes m.opened tokens fors whiles ∧
    m' = ⟨[], m.forLoops ++ fors, m.whileLoops ++ whiles, []⟩

theorem completes_nil : m.Completes [] m' ↔ (m.issues = [] ∧ m.opened = []) ∧ m' = m := by
  obtain ⟨opened, forLoops, whileLoops, issues⟩ := m
  constructor
  · rintro ⟨hissues, fors, whiles, h, rfl⟩
    dsimp only at h hissues
    cases h
    simp [hissues]
  · rintro ⟨⟨hissues, hopened⟩, rfl⟩
    dsimp only at hissues hopened
    subst hissues hopened
    exact ⟨rfl, [], [], .nil, by simp⟩

/-- After an issue nothing completes the matching. -/
theorem not_completes_report {issue : StructureIssue} : ¬ (m.report issue).Completes tokens m' := by
  rintro ⟨hissues, -⟩
  simp [report] at hissues

theorem completes_forLoop {id : NodeId} {counter : String} :
    m.Completes (.forLoop id counter :: rest) m' ↔
      { m with opened := .forLoop id counter :: m.opened }.Completes rest m' := by
  simp only [Completes, closes_forLoop_iff]

theorem completes_whileLoop {id : NodeId} :
    m.Completes (.whileLoop id :: rest) m' ↔
      { m with opened := .whileLoop id :: m.opened }.Completes rest m' := by
  simp only [Completes, closes_whileLoop_iff]

theorem completes_wend {id : NodeId} :
    m.Completes (.wend id :: rest) m' ↔ (m.wend id).Completes rest m' := by
  obtain ⟨opened, forLoops, whileLoops, issues⟩ := m
  rw [wend]
  split
  next node outer hopened =>
    dsimp only at hopened
    subst hopened
    constructor
    · rintro ⟨hissues, fors, whiles, h, rfl⟩
      cases h with
      | wend h => exact ⟨hissues, _, _, h, by simp⟩
    · rintro ⟨hissues, fors, whiles, h, rfl⟩
      exact ⟨hissues, _, _, .wend h, by simp⟩
  next hopened =>
    refine iff_of_false ?_ not_completes_report
    rintro ⟨-, fors, whiles, h, -⟩
    cases h with
    | wend h => exact hopened _ _ rfl

/-- A `NEXT` that may close the innermost loop closes it. -/
theorem completes_close {id node : NodeId} {counter : String} {name : Option String}
    {outer : List OpenLoop} (hopened : m.opened = .forLoop node counter :: outer)
    (hname : ∀ c ∈ name, c = counter) :
    m.Completes (.next id name :: rest) m' ↔ (m.close id node counter outer).Completes rest m' := by
  obtain ⟨opened, forLoops, whileLoops, issues⟩ := m
  dsimp only at hopened
  subst hopened
  constructor
  · rintro ⟨hissues, fors, whiles, h, rfl⟩
    cases h with
    | next _ h => exact ⟨hissues, _, _, h, by simp [close]⟩
  · rintro ⟨hissues, fors, whiles, h, rfl⟩
    exact ⟨hissues, _, _, .next hname h, by simp [close]⟩

/-- A `NEXT` has to close the innermost loop. -/
theorem not_completes_next {id : NodeId} {name : Option String}
    (hopened : ∀ node counter outer, m.opened = .forLoop node counter :: outer →
      ¬ ∀ c ∈ name, c = counter) :
    ¬ m.Completes (.next id name :: rest) m' := by
  obtain ⟨opened, forLoops, whileLoops, issues⟩ := m
  rintro ⟨-, fors, whiles, h, -⟩
  cases h with
  | next hname h => exact hopened _ _ _ rfl hname

theorem completes_closeInnermost {id : NodeId} :
    m.Completes (.next id none :: rest) m' ↔ (m.closeInnermost id).Completes rest m' := by
  rw [closeInnermost]
  split
  next node counter outer hopened => exact completes_close hopened (by simp)
  next hopened =>
    exact iff_of_false (not_completes_next fun _ _ _ h => absurd h (hopened _ _ _))
      not_completes_report

theorem completes_closeNamed {id : NodeId} {counter : String} :
    m.Completes (.next id (some counter) :: rest) m' ↔
      (m.closeNamed id counter).1.Completes rest m' := by
  rcases m.closeNamed_cases id counter with
    ⟨node, outer, hopened, heq⟩ | ⟨hopened, issue, hclosed⟩
  · rw [heq]
    exact completes_close hopened (by simp)
  · refine iff_of_false (not_completes_next fun node c outer h hc => ?_) ?_
    · obtain rfl : counter = c := hc counter rfl
      exact hopened node outer h
    · rcases hclosed with heq | ⟨node, outer, -, heq⟩
      · rw [heq]
        exact not_completes_report
      · rw [heq]
        rintro ⟨hissues, -⟩
        simp [close, report] at hissues

/-- A `NEXT` that closes nothing is an issue, so it does not matter that the names after it are
passed over. -/
theorem completes_closeAll {id : NodeId} {counters : List String} :
    m.Completes (counters.map (fun c => .next id (some c)) ++ rest) m' ↔
      (m.closeAll id counters).Completes rest m' := by
  induction counters generalizing m with
  | nil => rfl
  | cons counter counters ih =>
    rw [List.map_cons, List.cons_append, completes_closeNamed, closeAll]
    rcases m.closeNamed_cases id counter with
      ⟨node, outer, -, heq⟩ | ⟨-, issue, heq | ⟨node, outer, -, heq⟩⟩
    · rw [heq]
      exact ih
    · rw [heq]
      exact iff_of_false not_completes_report not_completes_report
    · rw [heq]
      exact ih

/-- The brackets of a statement do what the matching does at the statement. -/
theorem completes_step {id : NodeId} {s : Statement} :
    m.Completes (s.loopTokens id ++ rest) m' ↔ (m.step id s).Completes rest m' := by
  rw [Statement.loopTokens, step]
  cases s.command? with
  | none => rfl
  | some c =>
    cases c with
    | forLoop => exact completes_forLoop
    | whileLoop => exact completes_whileLoop
    | wend => exact completes_wend
    | next counters =>
      cases counters with
      | nil => exact completes_closeInnermost
      | cons name names =>
        have h : m.Completes (((name :: names).map Name.key).map (fun c => .next id (some c)) ++ rest)
            m' ↔ (m.closeAll id ((name :: names).map Name.key)).Completes rest m' :=
          completes_closeAll
        rwa [List.map_map] at h
    | _ => rfl

theorem completes_foldl_step (statements : List (NodeId × Statement)) :
    m.Completes (statements.flatMap fun (id, s) => s.loopTokens id) m' ↔
      (statements.foldl (fun m (id, s) => m.step id s) m).Completes [] m' := by
  induction statements generalizing m with
  | nil => rfl
  | cons e statements ih => rw [List.flatMap_cons, completes_step, ih, List.foldl_cons]

end LoopMatching

/-! ## The brackets of a program -/

theorem Program.loopTokens_eq_flatMap_placed (p : Program) :
    p.loopTokens = (p.placed.map fun q => (q.id, q.statement)).flatMap fun (id, s) =>
      s.loopTokens id := by
  have hstatements : p.allStatements = p.placed.map Placed.statement := by
    rw [allStatements, occurrences, occurrencesOfList_eq 2 Graph.exit, List.map_map]
    rfl
  have hzip : p.allStatements.zipIdx 2 = p.placed.map fun q => (q.statement, q.id) := by
    rw [List.zipIdx_eq_zip_range', hstatements, List.length_map, length_placed, ← map_id_placed,
      List.zip_map']
  rw [loopTokens, hzip, List.flatMap_map, List.flatMap_map]

/-- A program is well bracketed if and only if its loops are matched without an issue, and the loops
are then the pairs of brackets. -/
theorem Program.bracketed_iff (p : Program) :
    Bracketed p.loopTokens fors whiles ↔ p.matchedLoops.issues = [] ∧
      p.matchedLoops.forLoops = fors ∧ p.matchedLoops.whileLoops = whiles := by
  obtain ⟨m, hm⟩ : ∃ m, (p.placed.map fun q => (q.id, q.statement)).foldl
      (fun m (id, s) => m.step id s) LoopMatching.empty = m := ⟨_, rfl⟩
  have hmatched : p.matchedLoops =
      { m with issues := m.issues ++ m.opened.reverse.map OpenLoop.unclosed } := hm ▸ rfl
  have hcompletes : LoopMatching.empty.Completes p.loopTokens ⟨[], fors, whiles, []⟩ ↔
      (m.issues = [] ∧ m.opened = []) ∧ ⟨[], fors, whiles, []⟩ = m := by
    rw [p.loopTokens_eq_flatMap_placed, LoopMatching.completes_foldl_step, hm,
      LoopMatching.completes_nil]
  have hempty : LoopMatching.empty.Completes p.loopTokens ⟨[], fors, whiles, []⟩ ↔
      Bracketed p.loopTokens fors whiles := by
    rw [← closes_nil_iff]
    constructor
    · rintro ⟨-, fors', whiles', h, heq⟩
      obtain ⟨-, rfl, rfl, -⟩ := LoopMatching.mk.inj heq
      exact h
    · exact fun h => ⟨rfl, fors, whiles, h, rfl⟩
  rw [← hempty, hcompletes, hmatched]
  obtain ⟨opened, forLoops, whileLoops, issues⟩ := m
  constructor
  · rintro ⟨⟨hissues, hopened⟩, heq⟩
    obtain ⟨-, rfl, rfl, -⟩ := LoopMatching.mk.inj heq
    dsimp only at hissues hopened
    simp [hissues, hopened]
  · rintro ⟨hissues, rfl, rfl⟩
    have hnone : issues = [] ∧ opened = [] := by simpa using hissues
    obtain ⟨rfl, rfl⟩ := hnone
    exact ⟨⟨rfl, rfl⟩, rfl⟩

end LineBasic
