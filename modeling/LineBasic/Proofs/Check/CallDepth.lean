import Mathlib.Data.List.Perm.Subperm
import LineBasic.Proofs.Check.CallChains

/-!
# The depth of subroutines

The search for the depth marks subroutines as active and as finished. As long as it meets no active
one, the depths that it finds are those of the longest chains (`CallSearch.findsDepths`); and it
meets an active one if and only if the calls of the program form a cycle. So without a warning about
recursion, the computed depth is that of the longest chain of calls, and no run has more active
calls (`callNesting_bounds`).
-/

namespace LineBasic

namespace Graph

open Relation

variable {g : Graph} {line target : Nat}

/-- The main program calls the subroutine at the line, directly or through others. -/
def MainReaches (g : Graph) (line : Nat) : Prop :=
  ∃ first, g.MainCalls first ∧ ReflTransGen g.Calls first line

/-- Some subroutine that the main program calls may be called again before it returns. -/
def IsRecursive (g : Graph) : Prop := ∃ line, g.MainReaches line ∧ TransGen g.Calls line line

/-- A chain of `k` subroutines begins at the line. -/
def HasChain (g : Graph) (line k : Nat) : Prop :=
  ∃ rest, List.IsChain g.Calls (line :: rest) ∧ rest.length + 1 = k

/-- The longest chain that begins at the line has `d` subroutines. -/
structure IsDepth (g : Graph) (line d : Nat) : Prop where
  hasChain : g.HasChain line d
  le : ∀ k, g.HasChain line k → k ≤ d

theorem hasChain_one (g : Graph) (line : Nat) : g.HasChain line 1 := ⟨[], .singleton _, rfl⟩

theorem HasChain.cons {k : Nat} (h : g.HasChain target k) (hcall : g.Calls line target) :
    g.HasChain line (k + 1) := by
  obtain ⟨rest, hchain, rfl⟩ := h
  exact ⟨target :: rest, hchain.cons_cons hcall, rfl⟩

theorem HasChain.cases {k : Nat} (h : g.HasChain line k) :
    k = 1 ∨ ∃ target k', g.Calls line target ∧ g.HasChain target k' ∧ k = k' + 1 := by
  obtain ⟨rest, hchain, rfl⟩ := h
  cases rest with
  | nil => exact .inl rfl
  | cons target rest =>
    obtain ⟨hcall, hchain⟩ := List.isChain_cons_cons.1 hchain
    exact .inr ⟨target, rest.length + 1, hcall, ⟨rest, hchain, rfl⟩, rfl⟩

theorem HasChain.of_reflTransGen {k : Nat} (h : g.HasChain target k)
    (hreach : ReflTransGen g.Calls line target) : ∃ k', k ≤ k' ∧ g.HasChain line k' := by
  induction hreach using ReflTransGen.head_induction_on with
  | refl => exact ⟨k, Nat.le_refl _, h⟩
  | head hcall _ ih =>
    obtain ⟨k', hle, hchain⟩ := ih
    exact ⟨k' + 1, Nat.le_succ_of_le hle, hchain.cons hcall⟩

/-- A cycle gives chains of any length. -/
theorem exists_hasChain_of_transGen (h : TransGen g.Calls line line) (n : Nat) :
    ∃ k, n ≤ k ∧ g.HasChain line k := by
  induction n with
  | zero => exact ⟨1, Nat.zero_le _, hasChain_one g line⟩
  | succ n ih =>
    obtain ⟨k, hle, hchain⟩ := ih
    obtain ⟨target, hcall, hreach⟩ := TransGen.head'_iff.1 h
    obtain ⟨k', hle', hchain'⟩ := hchain.of_reflTransGen hreach
    exact ⟨k' + 1, Nat.succ_le_succ (Nat.le_trans hle hle'), hchain'.cons hcall⟩

/-- A program whose chains of calls have a bound is not recursive. -/
theorem not_isRecursive_of_isDepth (h : ∀ line, g.MainCalls line → ∃ d, g.IsDepth line d) :
    ¬ g.IsRecursive := by
  rintro ⟨line, ⟨first, hfirst, hreach⟩, hcycle⟩
  obtain ⟨d, hd⟩ := h first hfirst
  obtain ⟨k, hlt, hchain⟩ := exists_hasChain_of_transGen hcycle (d + 1)
  obtain ⟨k', hle, hchain'⟩ := hchain.of_reflTransGen hreach
  have := hd.le k' hchain'
  omega

/-- A subroutine is one deeper than the deepest that it calls. -/
theorem isDepth_succ {d : Nat} (hle : ∀ target, g.Calls line target →
      ∃ d', g.IsDepth target d' ∧ d' ≤ d)
    (hattained : d = 0 ∨ ∃ target, g.Calls line target ∧ g.IsDepth target d) :
    g.IsDepth line (d + 1) where
  hasChain := by
    rcases hattained with rfl | ⟨target, hcall, hd⟩
    · exact hasChain_one g line
    · exact hd.hasChain.cons hcall
  le k hk := by
    rcases hk.cases with rfl | ⟨target, k', hcall, hchain, rfl⟩
    · exact Nat.succ_le_succ (Nat.zero_le d)
    · obtain ⟨d', hd', hle⟩ := hle target hcall
      exact Nat.succ_le_succ (Nat.le_trans (hd'.le k' hchain) hle)

/-- A line that is about to be entered while the subroutines of `path` are active: each of them
leads to it, and the main program to all of them. -/
structure Entering (g : Graph) (path : List Nat) (line : Nat) : Prop where
  nodup : (line :: path).Nodup
  entries : ∀ a ∈ line :: path, ∃ start, g.lineEntry? a = some start
  calls : ∀ a ∈ path, ReflTransGen g.Calls a line
  main : g.MainReaches line

theorem Entering.call {path : List Nat} (h : g.Entering path line) (hcall : g.Calls line target)
    (hnew : target ∉ line :: path) (hentry : ∃ start, g.lineEntry? target = some start) :
    g.Entering (line :: path) target where
  nodup := List.nodup_cons.2 ⟨hnew, h.nodup⟩
  entries := List.forall_mem_cons.2 ⟨hentry, h.entries⟩
  calls := List.forall_mem_cons.2 ⟨.single hcall, fun a ha => (h.calls a ha).tail hcall⟩
  main := by
    obtain ⟨first, hfirst, hreach⟩ := h.main
    exact ⟨first, hfirst, hreach.tail hcall⟩

/-- A call of a subroutine that is active makes the program recursive. -/
theorem Entering.isRecursive {path : List Nat} (h : g.Entering path line)
    (hcall : g.Calls line target) (hactive : target ∈ line :: path) : g.IsRecursive := by
  obtain ⟨first, hfirst, hreach⟩ := h.main
  refine ⟨target, ⟨first, hfirst, hreach.tail hcall⟩, ?_⟩
  rcases List.mem_cons.1 hactive with rfl | hactive
  · exact .single hcall
  · exact .tail' (h.calls target hactive) hcall

/-- There are no more active subroutines than lines. -/
theorem Entering.length_lt {path : List Nat} (h : g.Entering path line) :
    path.length < g.entries.length := by
  have hsub : line :: path ⊆ g.entries.map Prod.fst := by
    intro a ha
    obtain ⟨start, hstart⟩ := h.entries a ha
    obtain ⟨e, he, -⟩ := Option.map_eq_some_iff.1 hstart
    exact List.mem_map.2 ⟨_, mem_of_find?_entry he, rfl⟩
  have hle := (List.Nodup.subperm h.nodup hsub).length_le
  rwa [List.length_map] at hle

end Graph

namespace CallSearch

open LineBasic.Graph

variable {g : Graph}

/-- The subroutines of the path are active. Depths that were found are right if no active subroutine
was met, and the program is recursive if one was. -/
structure Consistent (g : Graph) (path : List Nat) (s : CallSearch) : Prop where
  active : ∀ line : Nat, s.progress[line]? = some .active ↔ line ∈ path
  finished : s.recursive = [] → ∀ (line : Nat) (d : Nat),
    s.progress[line]? = some (.finished d) → g.IsDepth line d
  recursive : s.recursive ≠ [] → g.IsRecursive

/-- What a part of the search does: the same subroutines are active behind it. -/
structure Searches (g : Graph) (path : List Nat) (s s' : CallSearch) : Prop where
  consistent : Consistent g path s'
  recursive : s'.recursive = [] → s.recursive = []

theorem Consistent.searches {path : List Nat} {s : CallSearch} (h : Consistent g path s) :
    Searches g path s s := ⟨h, id⟩

theorem Searches.trans {path : List Nat} {s s' s'' : CallSearch} (h : Searches g path s s')
    (h' : Searches g path s' s'') : Searches g path s s'' :=
  ⟨h'.consistent, h.recursive ∘ h'.recursive⟩

/-- A call of an active subroutine is kept. -/
theorem Consistent.keep {path : List Nat} {s : CallSearch} (h : Consistent g path s)
    (hrecursive : g.IsRecursive) (call : CallSite) :
    Searches g path s { s with recursive := s.recursive ++ [call] } where
  consistent := ⟨h.active, fun hnone => absurd hnone (by simp), fun _ => hrecursive⟩
  recursive hnone := absurd hnone (by simp)

theorem Consistent.enter {path : List Nat} {s : CallSearch} (h : Consistent g path s) (line : Nat) :
    Consistent g (line :: path) { s with progress := s.progress.insert line .active } where
  active other := by
    rw [Std.ExtTreeMap.getElem?_insert, List.mem_cons, ← h.active other]
    split
    next heq =>
      obtain rfl := Std.LawfulEqCmp.eq_of_compare heq
      simp
    next hne =>
      have hne : other ≠ line := fun heq => hne (by simp [heq])
      simp [hne]
  finished hnone other d hd := by
    rw [Std.ExtTreeMap.getElem?_insert] at hd
    split at hd
    · cases hd
    · exact h.finished hnone other d hd
  recursive := h.recursive

theorem Consistent.finish {path : List Nat} {line d : Nat} {s : CallSearch}
    (h : Consistent g (line :: path) s) (hline : line ∉ path)
    (hd : s.recursive = [] → g.IsDepth line d) :
    Consistent g path { s with progress := s.progress.insert line (.finished d) } where
  active other := by
    rw [Std.ExtTreeMap.getElem?_insert]
    split
    next heq =>
      obtain rfl := Std.LawfulEqCmp.eq_of_compare heq
      simp [hline]
    next hne =>
      have hne : other ≠ line := fun heq => hne (by simp [heq])
      rw [h.active, List.mem_cons]
      simp [hne]
  finished hnone other d' hd' := by
    rw [Std.ExtTreeMap.getElem?_insert] at hd'
    split at hd'
    next heq =>
      obtain rfl := Std.LawfulEqCmp.eq_of_compare heq
      cases hd'
      exact hd hnone
    next => exact h.finished hnone other d' hd'
  recursive := h.recursive

/-- The number bounds the depths of the subroutines that are called, and is one of them unless it
is the one before. -/
structure Covers (g : Graph) (calls : List CallSite) (before deepest : Nat) : Prop where
  before_le : before ≤ deepest
  le : ∀ call ∈ calls, ∃ d, g.IsDepth call.target d ∧ d ≤ deepest
  attained : deepest = before ∨ ∃ call ∈ calls, g.IsDepth call.target deepest

theorem Covers.nil (g : Graph) (before : Nat) : Covers g [] before before :=
  ⟨Nat.le_refl _, List.forall_mem_nil _, .inl rfl⟩

theorem Covers.cons {call : CallSite} {rest : List CallSite} {before d deepest : Nat}
    (hd : g.IsDepth call.target d) (h : Covers g rest (max before d) deepest) :
    Covers g (call :: rest) before deepest where
  before_le := Nat.le_trans (Nat.le_max_left _ _) h.before_le
  le := List.forall_mem_cons.2
    ⟨⟨d, hd, Nat.le_trans (Nat.le_max_right _ _) h.before_le⟩, h.le⟩
  attained := by
    rcases h.attained with hmax | ⟨other, hother, hdeepest⟩
    · rcases Nat.le_total before d with hle | hle
      · rw [Nat.max_eq_right hle] at hmax
        exact .inr ⟨call, List.mem_cons_self, hmax ▸ hd⟩
      · rw [Nat.max_eq_left hle] at hmax
        exact .inl hmax
    · exact .inr ⟨other, List.mem_cons_of_mem _ hother, hdeepest⟩

theorem Covers.isDepth_succ {line deepest : Nat} {start : NodeId}
    (h : Covers g (g.callsFrom start) 0 deepest) (hstart : g.lineEntry? line = some start) :
    g.IsDepth line (deepest + 1) := by
  refine Graph.isDepth_succ ?_ ?_
  · rintro target ⟨start', hstart', call, hcall, rfl⟩
    obtain rfl := Option.some.inj (hstart.symm.trans hstart')
    exact h.le call hcall
  · refine h.attained.imp_right ?_
    rintro ⟨call, hcall, hd⟩
    exact ⟨call.target, ⟨start, hstart, call, hcall, rfl⟩, hd⟩

/-- Every line that is called is there. -/
def CalledLinesExist (g : Graph) : Prop :=
  ∀ start, ∀ call ∈ g.callsFrom start, ∃ first, g.lineEntry? call.target = some first

/-- What the search does at a call, with the depth that it has found before. -/
def visit (g : Graph) (n : Nat) (r : Nat × CallSearch) (call : CallSite) : Nat × CallSearch :=
  if r.2.progress[call.target]? = some .active then
    (r.1, { r.2 with recursive := r.2.recursive ++ [call] })
  else
    (max r.1 (depth g n call.target r.2).1, (depth g n call.target r.2).2)

theorem depth_of_entry {n line : Nat} {s : CallSearch} {entry : NodeId}
    (hnew : s.progress[line]? = none) (hentry : g.lineEntry? line = some entry) :
    depth g (n + 1) line s =
      let r := (g.callsFrom entry).foldl (visit g n)
        (0, { s with progress := s.progress.insert line .active })
      (r.1 + 1, { r.2 with progress := r.2.progress.insert line (.finished (r.1 + 1)) }) := by
  rw [depth, hnew, hentry]
  rfl

/-- With `n` levels, the search finds the depth of every line that the path may enter, unless it
meets an active one. -/
def FindsDepths (g : Graph) (n : Nat) : Prop :=
  ∀ {path : List Nat} {line : Nat} {s : CallSearch}, Consistent g path s → g.Entering path line →
    g.entries.length < n + path.length →
      Searches g path s (depth g n line s).2 ∧
        ((depth g n line s).2.recursive = [] → g.IsDepth line (depth g n line s).1)

/-- The calls of a subroutine are searched one after the other while it is active. -/
theorem FindsDepths.searches_calls {n line : Nat} {path : List Nat} {entry : NodeId}
    (h : FindsDepths g n) (hexist : CalledLinesExist g) (hline : g.Entering path line)
    (hentry : g.lineEntry? line = some entry) (hn : g.entries.length < n + (line :: path).length)
    {calls : List CallSite} (hcalls : ∀ call ∈ calls, call ∈ g.callsFrom entry) (before : Nat)
    {s : CallSearch} (hs : Consistent g (line :: path) s) :
    let r := calls.foldl (visit g n) (before, s)
    Searches g (line :: path) s r.2 ∧ (r.2.recursive = [] → Covers g calls before r.1) := by
  induction calls generalizing before s with
  | nil => exact ⟨hs.searches, fun _ => .nil g before⟩
  | cons call rest ih =>
    obtain ⟨hcall, hrest⟩ := List.forall_mem_cons.1 hcalls
    have hcalled : g.Calls line call.target := ⟨entry, hentry, call, hcall, rfl⟩
    rw [List.foldl_cons, visit]
    dsimp only
    split
    next hactive =>
      have kept := hs.keep (hline.isRecursive hcalled ((hs.active _).1 hactive)) call
      obtain ⟨hsearch, -⟩ := ih hrest before kept.consistent
      refine ⟨kept.trans hsearch, fun hnone => ?_⟩
      exact absurd (hsearch.recursive hnone) (by simp)
    next hactive =>
      have entering := hline.call hcalled (mt (hs.active _).2 hactive) (hexist entry call hcall)
      obtain ⟨hdown, hdepth⟩ := h hs entering hn
      obtain ⟨hsearch, hcovers⟩ := ih hrest (max before _) hdown.consistent
      refine ⟨hdown.trans hsearch, fun hnone => ?_⟩
      exact .cons (hdepth (hsearch.recursive hnone)) (hcovers hnone)

theorem findsDepths (hexist : CalledLinesExist g) (n : Nat) : FindsDepths g n := by
  induction n with
  | zero =>
    intro path line s _ hline hn
    have := hline.length_lt
    omega
  | succ n ih =>
    intro path line s hs hline hn
    have hnew : line ∉ path := (List.nodup_cons.1 hline.nodup).1
    obtain ⟨entry, hentry⟩ := hline.entries line List.mem_cons_self
    rcases hprogress : s.progress[line]? with _ | _ | d
    · rw [depth_of_entry hprogress hentry]
      obtain ⟨hsearch, hcovers⟩ := ih.searches_calls hexist hline hentry
        (by rw [List.length_cons]; omega) (fun _ h => h) 0 (hs.enter line)
      dsimp only
      generalize List.foldl _ _ _ = r at hsearch hcovers ⊢
      obtain ⟨deepest, s'⟩ := r
      have hdepth (hnone : s'.recursive = []) : g.IsDepth line (deepest + 1) :=
        (hcovers hnone).isDepth_succ hentry
      exact ⟨⟨hsearch.consistent.finish hnew hdepth, hsearch.recursive⟩, hdepth⟩
    · exact absurd ((hs.active line).1 hprogress) hnew
    · rw [depth, hprogress]
      exact ⟨hs.searches, fun hnone => hs.finished hnone line _ hprogress⟩

/-- The searches from the calls of the main program find the depth of the deepest. -/
theorem overCalls_spec (hexist : CalledLinesExist g) {calls : List CallSite}
    (hcalls : ∀ call ∈ calls, call ∈ g.callsFrom Graph.entry) (deepest : Option (Nat × CallSite))
    {s : CallSearch} (hs : Consistent g [] s) :
    Searches g [] s (overCalls g calls deepest s).2 ∧
      ((overCalls g calls deepest s).2.recursive = [] →
        Covers g calls (deepest.elim 0 Prod.fst)
          ((overCalls g calls deepest s).1.elim 0 Prod.fst)) := by
  induction calls generalizing deepest s with
  | nil => exact ⟨hs.searches, fun _ => .nil g _⟩
  | cons call rest ih =>
    obtain ⟨hcall, hrest⟩ := List.forall_mem_cons.1 hcalls
    have entering : g.Entering [] call.target :=
      { nodup := List.nodup_singleton _
        entries := List.forall_mem_singleton.2 (hexist _ call hcall)
        calls := List.forall_mem_nil _
        main := ⟨call.target, ⟨call, hcall, rfl⟩, .refl⟩ }
    obtain ⟨hdown, hdepth⟩ := findsDepths hexist (g.entries.length + 1) hs entering (by simp)
    rw [overCalls]
    generalize depth g (g.entries.length + 1) call.target s = r at hdown hdepth ⊢
    obtain ⟨d, s'⟩ := r
    dsimp only at hdown hdepth ⊢
    obtain ⟨hsearch, hcovers⟩ := ih hrest
      (if deepest.all fun old => decide (old.1 < d) then some (d, call) else deepest)
      hdown.consistent
    refine ⟨hdown.trans hsearch, fun hnone => ?_⟩
    have hmax : (if deepest.all fun old => decide (old.1 < d) then some (d, call)
        else deepest).elim 0 Prod.fst = max (deepest.elim 0 Prod.fst) d := by
      cases deepest with
      | none => simp
      | some old =>
        by_cases hlt : old.1 < d
        · simp [hlt, Nat.max_eq_right (Nat.le_of_lt hlt)]
        · simp [hlt, Nat.max_eq_left (Nat.le_of_not_lt hlt)]
    exact .cons (hdepth (hsearch.recursive hnone)) (hmax ▸ hcovers hnone)

theorem consistent_start (g : Graph) : Consistent g [] .start :=
  ⟨fun line => by simp [start], fun _ line d h => by simp [start] at h, fun h => absurd rfl h⟩

end CallSearch

/-! ## The nesting of a program -/

namespace CallNesting

open LineBasic.Graph CallSearch

variable {g : Graph}

theorem withoutRepeats_eq_nil {α : Type} [DecidableEq α] {l : List α} :
    withoutRepeats l = [] ↔ l = [] := by
  simp only [List.eq_nil_iff_forall_not_mem, mem_withoutRepeats]

theorem recursive_ofGraph_eq_nil :
    (ofGraph g).recursive = [] ↔
      (overCalls g (g.callsFrom Graph.entry) none .start).2.recursive = [] := by
  rw [ofGraph, withoutRepeats_eq_nil]
  simp only [List.eq_nil_iff_forall_not_mem, List.mem_mergeSort]

/-- The calls are recursive if some are found to be, and else the depth is the length of the longest
chain of calls. -/
theorem ofGraph_spec (hexist : CalledLinesExist g) :
    ((ofGraph g).recursive ≠ [] ↔ g.IsRecursive) ∧
      ((ofGraph g).recursive = [] →
        (∃ chain, g.CallChain chain ∧ chain.length = (ofGraph g).depth) ∧
        ∀ chain, g.CallChain chain → chain.length ≤ (ofGraph g).depth) := by
  obtain ⟨hsearch, hcovers⟩ :=
    overCalls_spec hexist (fun _ h => h) none (consistent_start g)
  have covered (hnone : (ofGraph g).recursive = []) :
      Covers g (g.callsFrom Graph.entry) 0 (ofGraph g).depth :=
    hcovers (recursive_ofGraph_eq_nil.1 hnone)
  refine ⟨⟨fun hsome => ?_, fun hrecursive hnone => ?_⟩, fun hnone => ⟨?_, fun chain hchain => ?_⟩⟩
  · exact hsearch.consistent.recursive (mt recursive_ofGraph_eq_nil.2 hsome)
  · refine not_isRecursive_of_isDepth ?_ hrecursive
    rintro _ ⟨call, hcall, rfl⟩
    obtain ⟨d, hd, -⟩ := (covered hnone).le call hcall
    exact ⟨d, hd⟩
  · rcases (covered hnone).attained with hzero | ⟨call, hcall, hd⟩
    · exact ⟨[], trivial, hzero.symm⟩
    · obtain ⟨rest, hrest, hlength⟩ := hd.hasChain
      exact ⟨call.target :: rest, ⟨⟨call, hcall, rfl⟩, hrest⟩, hlength⟩
  · cases chain with
    | nil => exact Nat.zero_le _
    | cons first rest =>
      obtain ⟨⟨call, hcall, rfl⟩, hrest⟩ := hchain
      obtain ⟨d, hd, hle⟩ := (covered hnone).le call hcall
      exact Nat.le_trans (hd.le _ ⟨rest, hrest, rfl⟩) hle

/-- The warning says that a subroutine is called recursively. -/
def IsRecursionWarning (w : Diagnostic) : Prop :=
  ∃ target : Nat, w.message = s!"Recursive GOSUB {target}"

/-- The warning says that subroutines are nested too deep. -/
def IsDepthWarning (w : Diagnostic) : Prop :=
  ∃ depth limit : Nat, w.message = s!"GOSUB nesting depth {depth} exceeds the limit of {limit}"

theorem not_isDepthWarning_of_isRecursionWarning {w : Diagnostic} (h : IsRecursionWarning w) :
    ¬ IsDepthWarning w := by
  obtain ⟨target, htarget⟩ := h
  rintro ⟨depth, limit, hdepth⟩
  have heads := congrArg (fun text : String => text.toList.head?) (htarget.symm.trans hdepth)
  simp only [String.toList_append, List.head?_append] at heads
  have differ : (some 'R' : Option Char) = some 'G' := heads
  cases differ

/-- Recursive calls are warned of. -/
theorem exists_recursionWarning_iff {c : CallNesting} {limit : Nat} :
    (∃ w ∈ c.warnings limit, IsRecursionWarning w) ↔ c.recursive ≠ [] := by
  constructor
  · rintro ⟨w, hw, hrecursion⟩ hnone
    rw [warnings, hnone, List.map_nil, List.nil_append, Option.mem_toList,
      Option.map_eq_some_iff] at hw
    obtain ⟨⟨depth, call⟩, -, rfl⟩ := hw
    exact not_isDepthWarning_of_isRecursionWarning hrecursion ⟨depth, limit, rfl⟩
  · intro hsome
    obtain ⟨call, hcall⟩ := List.exists_mem_of_ne_nil _ hsome
    exact ⟨_, List.mem_append_left _ (List.mem_map_of_mem hcall), call.target, rfl⟩

/-- A nesting that is deeper than the limit is warned of. -/
theorem exists_depthWarning_iff {c : CallNesting} {limit : Nat} :
    (∃ w ∈ c.warnings limit, IsDepthWarning w) ↔ limit < c.depth := by
  constructor
  · rintro ⟨w, hw, hdepth⟩
    rcases List.mem_append.1 hw with hw | hw
    · obtain ⟨call, -, rfl⟩ := List.mem_map.1 hw
      exact absurd hdepth (not_isDepthWarning_of_isRecursionWarning ⟨call.target, rfl⟩)
    · rw [Option.mem_toList, Option.map_eq_some_iff] at hw
      obtain ⟨d, hd, -⟩ := hw
      obtain ⟨hdeepest, hlt⟩ := Option.filter_eq_some_iff.1 hd
      rw [depth, hdeepest]
      exact of_decide_eq_true hlt
  · intro hlt
    rcases hdeepest : c.deepest with _ | ⟨d, call⟩
    · rw [depth, hdeepest] at hlt
      exact absurd hlt (Nat.not_lt_zero _)
    · rw [depth, hdeepest] at hlt
      refine ⟨Diagnostic.warning call.line s!"GOSUB nesting depth {d} exceeds the limit of {limit}",
        List.mem_append_right _ (Option.mem_toList.2 ?_), d, limit, rfl⟩
      exact Option.map_eq_some_iff.2
        ⟨(d, call), Option.filter_eq_some_iff.2 ⟨hdeepest, decide_eq_true hlt⟩, rfl⟩

end CallNesting

/-! ## Programs that are read -/

namespace Graph

theorem CallsResolve.calledLinesExist {g : Graph} (hg : g.WellFormed) (h : g.CallsResolve) :
    CallSearch.CalledLinesExist g := by
  intro start call hcall
  obtain ⟨id, -, n, hn, hcall⟩ := (mem_callsFrom_iff hg).1 hcall
  obtain ⟨⟨target, kind⟩, htarget, hsite⟩ := List.mem_filterMap.1 hcall
  obtain ⟨rfl, hsite⟩ := Option.ite_none_right_eq_some.1 hsite
  obtain rfl := Option.some.inj hsite
  refine ⟨target, h id target ?_⟩
  rw [successors, hn]
  exact htarget

end Graph

/-- What the warnings about the nesting of subroutines say of the runs of a program. -/
structure NestingIsBounded (g : Graph) (limit : Nat) : Prop where
  recursion : (∃ w ∈ (CallNesting.ofGraph g).warnings limit, CallNesting.IsRecursionWarning w) ↔
    g.IsRecursive
  /-- Without recursion, no run has more active calls than the depth. -/
  runs : ¬ (∃ w ∈ (CallNesting.ofGraph g).warnings limit, CallNesting.IsRecursionWarning w) →
    ∀ run, History g.StrictStep (Graph.entry, []) run →
      ∀ s ∈ run, s.2.length ≤ (CallNesting.ofGraph g).depth
  /-- Without recursion, the depth is the length of the longest chain. -/
  longest : ¬ (∃ w ∈ (CallNesting.ofGraph g).warnings limit, CallNesting.IsRecursionWarning w) →
    (∃ chain, g.CallChain chain ∧ chain.length = (CallNesting.ofGraph g).depth) ∧
      ∀ chain, g.CallChain chain → chain.length ≤ (CallNesting.ofGraph g).depth
  tooDeep : (∃ w ∈ (CallNesting.ofGraph g).warnings limit, CallNesting.IsDepthWarning w) ↔
    limit < (CallNesting.ofGraph g).depth

/--
In every program that is read and calls no missing statement, the warnings tell if subroutines are
recursive, and if they are not, how many calls can be active at most.
-/
theorem callNesting_bounds {source : String} {p : Program} (hp : Program.parse source = .ok p)
    (hcalls : p.ResolvesCalls) (limit : Nat) : NestingIsBounded (Graph.build p) limit := by
  have resolve := Program.callsResolve (Program.isNumbered_of_parse hp) hcalls
  obtain ⟨hrecursive, hlongest⟩ :=
    CallNesting.ofGraph_spec (resolve.calledLinesExist (Graph.wellFormed_build p))
  have longest (hnone : ¬ ∃ w ∈ (CallNesting.ofGraph (Graph.build p)).warnings limit,
      CallNesting.IsRecursionWarning w) :=
    hlongest (not_not.1 (mt CallNesting.exists_recursionWarning_iff.2 hnone))
  refine ⟨CallNesting.exists_recursionWarning_iff.trans hrecursive, ?_, longest,
    CallNesting.exists_depthWarning_iff⟩
  intro hnone run hrun s hs
  obtain ⟨chain, hchain, hlength⟩ := Graph.exists_callChain_of_run resolve hrun s hs
  exact hlength ▸ (longest hnone).2 chain hchain

/-- Two subroutines, of which the first one calls the second. -/
def nestedCallsText : String := "10 GOSUB 40\n20 END\n40 GOSUB 60\n50 RETURN\n60 RETURN\n"

/-- With a limit of one call, the nesting of the two subroutines is warned of. -/
theorem exists_depthWarning_nestedCalls :
    ∃ p, Program.parse nestedCallsText = .ok p ∧ p.ResolvesCalls ∧
      NestingIsBounded (Graph.build p) 1 ∧ ¬ (Graph.build p).IsRecursive ∧
      ∃ w ∈ (CallNesting.ofGraph (Graph.build p)).warnings 1, CallNesting.IsDepthWarning w := by
  have found : ((Program.parse nestedCallsText).toOption.any fun p =>
      (p.allStatements.all fun s => s.command?.all fun c =>
        c.calledLines.all fun line => p.edgeContext.entryOf line != Graph.exit) &&
      ((CallNesting.ofGraph (Graph.build p)).recursive.isEmpty &&
        (CallNesting.ofGraph (Graph.build p)).depth == 2)) = true := by
    decide +kernel
  obtain ⟨p, hp, h⟩ := (Option.any_eq_true ..).1 found
  rw [Bool.and_eq_true, Bool.and_eq_true, List.isEmpty_iff, beq_iff_eq] at h
  obtain ⟨hcalls, hnone, hdepth⟩ := h
  have parsed : Program.parse nestedCallsText = .ok p := by
    cases hparse : Program.parse nestedCallsText with
    | error => rw [hparse] at hp; cases hp
    | ok => rw [hparse] at hp; exact congrArg _ (Option.some.inj hp)
  have resolves : p.ResolvesCalls := by
    intro s hs c hc line hline
    have hall := List.all_eq_true.1 hcalls s hs
    rw [hc] at hall
    exact bne_iff_ne.1 (List.all_eq_true.1 hall line hline)
  have bounds := callNesting_bounds parsed resolves 1
  refine ⟨p, parsed, resolves, bounds, fun hrecursive => ?_, bounds.tooDeep.2 (by omega)⟩
  exact CallNesting.exists_recursionWarning_iff.1 (bounds.recursion.2 hrecursive) hnone

end LineBasic
