import Mathlib.Data.List.Flatten
import LineBasic.Proofs.Flow.Candidates
import LineBasic.Proofs.Flow.Solution

/-!
# Available expressions are available

A key in the fact of a node has been computed on every path to the node and nothing that it reads
has been written since then; some site of the key is on the path
(`CandidateTable.sound_availableExpressions`). The transfer of facts is not monotone, because an
available expression hides its operands, but this needs the stability of the facts only.
-/

namespace LineBasic

/-! ## Meets and transfers -/

theorem AvailableSet.getElem?_meet (x y : AvailableSet) (key : String) :
    (x.meet y)[key]? = (x[key]?).bind fun sites => (y[key]?).map fun others => sites ∪ others := by
  rw [AvailableSet.meet, Std.ExtTreeMap.getElem?_filterMap']

theorem union_sites_comm (x y : Std.ExtTreeSet Site) : x ∪ y = y ∪ x :=
  Std.ExtTreeSet.ext_mem fun s => by
    rw [Std.ExtTreeSet.mem_union_iff, Std.ExtTreeSet.mem_union_iff, or_comm]

theorem union_sites_assoc (x y z : Std.ExtTreeSet Site) : x ∪ y ∪ z = x ∪ (y ∪ z) :=
  Std.ExtTreeSet.ext_mem fun s => by simp only [Std.ExtTreeSet.mem_union_iff, or_assoc]

theorem union_sites_self (x : Std.ExtTreeSet Site) : x ∪ x = x :=
  Std.ExtTreeSet.ext_mem fun s => by rw [Std.ExtTreeSet.mem_union_iff, or_self_iff]

namespace CandidateTable

variable {c : CandidateTable} {id : NodeId} {fact : AvailableSet} {key : String}
  {sites : Std.ExtTreeSet Site}

theorem lawful_availableExpressions (c : CandidateTable) : (availableExpressions c).Lawful where
  comm x y := Std.ExtTreeMap.ext_getElem? fun key => by
    simp only [availableExpressions, AvailableSet.getElem?_meet]
    rcases x[key]? with _ | sites <;> rcases y[key]? with _ | others <;>
      simp [union_sites_comm]
  assoc x y z := Std.ExtTreeMap.ext_getElem? fun key => by
    simp only [availableExpressions, AvailableSet.getElem?_meet]
    rcases x[key]? with _ | sites <;> rcases y[key]? with _ | others <;>
      rcases z[key]? with _ | more <;> simp [union_sites_assoc]
  self x := Std.ExtTreeMap.ext_getElem? fun key => by
    simp only [availableExpressions, AvailableSet.getElem?_meet]
    rcases x[key]? with _ | sites <;> simp [union_sites_self]

theorem getElem?_kill :
    (c.kill id fact)[key]? = some sites ↔ fact[key]? = some sites ∧ ¬ c.KilledAt id key := by
  have killed : ((c.kills[id]?).getD []).any (fun name =>
      (c.reads[key]?).any fun r => r.contains name) ↔ c.KilledAt id key := by
    simp only [KilledAt, List.any_eq_true, Option.any_eq_true, Std.ExtTreeSet.contains_iff_mem]
  rw [kill, Std.ExtTreeMap.getElem?_filter', Option.filter_eq_some_iff, ← killed,
    Bool.not_eq_true, Bool.not_eq_true']

/-- The candidates of a node are all computed before it writes. -/
theorem computed_scan (c : CandidateTable) (id : NodeId) (fact : AvailableSet) :
    ∃ fact', c.Computed id (c.ofNode id).length fact fact' ∧ (c.scan id fact).1 = c.kill id fact' ∧
      ∀ r ∈ (c.scan id fact).2, c.FoundAt id fact r := by
  have start : c.Computed id 0 fact fact := .refl
  obtain ⟨hfact, hfound⟩ := start.compute (c.ofNode id) 0 rfl
  exact ⟨_, Nat.zero_add (c.ofNode id).length ▸ hfact, rfl, hfound⟩

/-! ## The analysis ends -/

/-- All sites of a key have it, and there is one. -/
def Valid (c : CandidateTable) (fact : AvailableSet) : Prop :=
  ∀ (key : String) (sites : Std.ExtTreeSet Site), fact[key]? = some sites →
    (∃ s, s ∈ sites) ∧ ∀ s ∈ sites, c.KeyAt s key

theorem Valid.computed {n : Nat} {fact' : AvailableSet} (h : c.Valid fact)
    (hfact : c.Computed id n fact fact') : c.Valid fact' := by
  intro key sites' hkey
  constructor
  · rcases hold : fact[key]? with _ | sites
    · exact (hfact.fresh hkey hold).imp fun _ => And.left
    · obtain ⟨s, hs⟩ := (h key sites hold).1
      obtain ⟨sites'', hkey', hsub⟩ := hfact.keeps hold
      obtain rfl := Option.some.inj (hkey.symm.trans hkey')
      exact ⟨s, hsub s hs⟩
  · intro s hs
    rcases hfact.adds hkey s hs with ⟨sites, hold, hs⟩ | hnew
    · exact (h key sites hold).2 s hs
    · exact hnew.2.2

theorem Valid.meet {x y : AvailableSet} (hx : c.Valid x) (hy : c.Valid y) :
    c.Valid (x.meet y) := by
  intro key sites hkey
  rw [AvailableSet.getElem?_meet, Option.bind_eq_some_iff] at hkey
  obtain ⟨left, hleft, hkey⟩ := hkey
  obtain ⟨right, hright, rfl⟩ := Option.map_eq_some_iff.1 hkey
  obtain ⟨⟨s, hs⟩, hall⟩ := hx key left hleft
  refine ⟨⟨s, Std.ExtTreeSet.mem_union_iff.2 (.inl hs)⟩, fun s hs => ?_⟩
  rcases Std.ExtTreeSet.mem_union_iff.1 hs with hs | hs
  · exact hall s hs
  · exact (hy key right hright).2 s hs

/-- All sites with their keys. -/
def places (c : CandidateTable) : List (String × Site) :=
  c.candidates.toList.zipIdx.flatMap fun (list, id) =>
    list.zipIdx.map fun (x, position) => (x.key, (id, position))

theorem length_places : c.places.length = c.count := by
  rw [places, count, List.length_flatten]
  exact ForwardAnalysis.length_flatMap_zipIdx _ _ _ fun entry => by simp

theorem mem_places {s : Site} (h : c.KeyAt s key) : (key, s) ∈ c.places := by
  obtain ⟨x, hx, rfl⟩ := h
  rw [candidate?, ofNode] at hx
  rcases hlist : c.candidates[s.1]? with _ | list <;> rw [hlist] at hx
  · simp at hx
  · refine List.mem_flatMap.2 ⟨(list, s.1), ?_, List.mem_map.2 ⟨(x, s.2), ?_, rfl⟩⟩
    · rw [List.mem_zipIdx_iff_getElem?, Array.getElem?_toList]
      exact hlist
    · rw [List.mem_zipIdx_iff_getElem?]
      exact hx

/-- Keys that may be lost, and sites that may come to a key. -/
def rank (c : CandidateTable) (fact : AvailableSet) : Nat :=
  c.places.countP (fun place => fact.contains place.1) +
    c.places.countP fun place => (fact[place.1]?).any fun sites => !sites.contains place.2

theorem mem_of_mem_meet {x y : AvailableSet} (h : key ∈ x.meet y) : key ∈ x := by
  rw [Std.ExtTreeMap.mem_iff_isSome_getElem?, AvailableSet.getElem?_meet] at h
  rw [Std.ExtTreeMap.mem_iff_isSome_getElem?]
  exact Option.isSome_of_isSome_bind h

theorem any_not_contains_iff {s : Site} :
    ((fact[key]?).any fun sites => !sites.contains s) ↔
      ∃ sites, fact[key]? = some sites ∧ s ∉ sites := by
  simp only [Option.any_eq_true, Bool.not_eq_true', ← Bool.not_eq_true,
    Std.ExtTreeSet.contains_iff_mem]

/-- A site that may still come to a key after a meet could come before it. -/
theorem exists_not_mem_of_meet {x y : AvailableSet} {s : Site}
    (h : ∃ sites, (x.meet y)[key]? = some sites ∧ s ∉ sites) :
    ∃ sites, x[key]? = some sites ∧ s ∉ sites := by
  obtain ⟨sites, hkey, hs⟩ := h
  rw [AvailableSet.getElem?_meet, Option.bind_eq_some_iff] at hkey
  obtain ⟨left, hleft, hkey⟩ := hkey
  obtain ⟨right, -, rfl⟩ := Option.map_eq_some_iff.1 hkey
  exact ⟨left, hleft, fun hmem => hs (Std.ExtTreeSet.mem_union_iff.2 (.inl hmem))⟩

theorem rank_meet_lt {x y : AvailableSet} (hx : c.Valid x) (hy : c.Valid y)
    (hne : x.meet y ≠ x) : c.rank (x.meet y) < c.rank x := by
  have keys : ∀ place ∈ c.places, (x.meet y).contains place.1 → x.contains place.1 :=
    fun place _ h => Std.ExtTreeMap.contains_iff_mem.2
      (mem_of_mem_meet (Std.ExtTreeMap.contains_iff_mem.1 h))
  have sites : ∀ place ∈ c.places, ((x.meet y)[place.1]?).any (fun sites =>
      !sites.contains place.2) → (x[place.1]?).any fun sites => !sites.contains place.2 :=
    fun place _ h => any_not_contains_iff.2 (exists_not_mem_of_meet (any_not_contains_iff.1 h))
  have changed : ∃ (key : String) (left : _), x[key]? = some left ∧
      (x.meet y)[key]? ≠ some left := by
    by_contra! hsame
    refine hne (Std.ExtTreeMap.ext_getElem? fun key => ?_)
    rcases hkey : x[key]? with _ | left
    · simp [AvailableSet.getElem?_meet, hkey]
    · exact hsame key left hkey
  obtain ⟨key, left, hleft, hchanged⟩ := changed
  rw [AvailableSet.getElem?_meet, hleft, Option.bind_some] at hchanged
  rcases hright : y[key]? with _ | right
  · -- The key is lost.
    obtain ⟨⟨s, hs⟩, hkeyAt⟩ := hx key left hleft
    refine Nat.add_lt_add_of_lt_of_le (ForwardAnalysis.countP_lt_countP keys
      (mem_places (hkeyAt s hs)) ?_ ?_) (List.countP_mono_left sites)
    · exact Std.ExtTreeMap.contains_iff_mem.2
        (Std.ExtTreeMap.mem_iff_isSome_getElem?.2 (Option.isSome_of_eq_some hleft))
    · simp [Std.ExtTreeMap.mem_iff_isSome_getElem?, AvailableSet.getElem?_meet, hleft, hright]
  · -- A site comes to the key.
    have new : ∃ s ∈ right, s ∉ left := by
      by_contra! hsub
      refine hchanged ?_
      rw [hright, Option.map_some]
      refine congrArg some (Std.ExtTreeSet.ext_mem fun s => ?_)
      rw [Std.ExtTreeSet.mem_union_iff, or_iff_left_of_imp (hsub s)]
    obtain ⟨s, hs, hnew⟩ := new
    refine Nat.add_lt_add_of_le_of_lt (List.countP_mono_left keys)
      (ForwardAnalysis.countP_lt_countP sites (mem_places ((hy key right hright).2 s hs)) ?_ ?_)
    · exact any_not_contains_iff.2 ⟨left, hleft, hnew⟩
    · rw [any_not_contains_iff, AvailableSet.getElem?_meet, hleft, hright]
      rintro ⟨sites, hkey, hmem⟩
      obtain rfl := Option.some.inj hkey
      exact hmem (Std.ExtTreeSet.mem_union_iff.2 (.inr hs))

theorem bounded_availableExpressions (c : CandidateTable) :
    (availableExpressions c).Bounded c.Valid c.rank where
  atEntry key sites h := by simp [availableExpressions] at h
  transfer {x} id hx := by
    obtain ⟨fact', hfact', hscan, -⟩ := c.computed_scan id x
    intro key sites hkey
    have hkey : (c.kill id fact')[key]? = some sites := hscan ▸ hkey
    exact hx.computed hfact' key sites (getElem?_kill.1 hkey).1
  meet hx hy := hx.meet hy
  rank_le _ := by
    rw [rank, availableExpressions, ← length_places, Nat.two_mul]
    exact Nat.add_le_add List.countP_le_length List.countP_le_length
  rank_lt hx hy hne := rank_meet_lt hx hy hne

/-! ## Available on a path -/

/-- The key was computed at one of the nodes, the latest first, and nothing has killed it since. -/
def AvailableOn (c : CandidateTable) (nodes : List NodeId) (key : String) : Prop :=
  ∃ since m before, nodes = since ++ m :: before ∧
    (∃ s : Site, s.1 = m ∧ c.KeyAt s key) ∧
    ∀ d ∈ m :: since, ¬ c.KilledAt d key

theorem AvailableOn.cons {nodes : List NodeId} (h : c.AvailableOn nodes key)
    (hid : ¬ c.KilledAt id key) : c.AvailableOn (id :: nodes) key := by
  obtain ⟨since, m, before, rfl, hm, hsince⟩ := h
  refine ⟨id :: since, m, before, rfl, hm, fun d hd => ?_⟩
  rcases List.mem_cons.1 hd with rfl | hd
  · exact hsince d List.mem_cons_self
  · rcases List.mem_cons.1 hd with rfl | hd
    · exact hid
    · exact hsince d (List.mem_cons_of_mem _ hd)

theorem availableOn_cons_of_keyAt {nodes : List NodeId} {s : Site} (h : c.KeyAt s key)
    (hs : s.1 = id) (hid : ¬ c.KilledAt id key) : c.AvailableOn (id :: nodes) key :=
  ⟨[], id, nodes, rfl, ⟨s, hs, h⟩, List.forall_mem_singleton.2 hid⟩

/-- Every key of the fact is available on the path, and one of its sites is on the path. -/
def SoundOn (c : CandidateTable) (path : List ContextNode) (fact : AvailableSet) : Prop :=
  ∀ (key : String) (sites : Std.ExtTreeSet Site), fact[key]? = some sites →
    c.AvailableOn (path.tail.map Prod.fst) key ∧
      ∃ s : Site, s ∈ sites ∧ s.1 ∈ path.tail.map Prod.fst

theorem sound_availableExpressions (c : CandidateTable) (g : Graph) :
    (availableExpressions c).Sound g c.SoundOn where
  entry {I} hI key sites hkey := by
    have hI : I.meet ∅ = I := hI
    rw [← hI, AvailableSet.getElem?_meet] at hkey
    simp at hkey
  step {k t past I J} hI _ hJ key sites hkey := by
    obtain ⟨fact', hfact', hscan, -⟩ := c.computed_scan k.1 I
    have hJ : J.meet (c.kill k.1 fact') = J := hscan ▸ hJ
    rw [← hJ, AvailableSet.getElem?_meet, Option.bind_eq_some_iff] at hkey
    obtain ⟨left, -, hkey⟩ := hkey
    obtain ⟨right, hright, rfl⟩ := Option.map_eq_some_iff.1 hkey
    obtain ⟨hright, hlive⟩ := getElem?_kill.1 hright
    rcases hold : I[key]? with _ | old
    · obtain ⟨s, hs, hid, -, hkeyAt⟩ := hfact'.fresh hright hold
      exact ⟨availableOn_cons_of_keyAt hkeyAt hid hlive,
        s, Std.ExtTreeSet.mem_union_iff.2 (.inr hs), List.mem_cons.2 (.inl hid)⟩
    · obtain ⟨havailable, s, hs, hpast⟩ := hI key old hold
      obtain ⟨right', hright', hsub⟩ := hfact'.keeps hold
      obtain rfl := Option.some.inj (hright.symm.trans hright')
      exact ⟨havailable.cons hlive, s, Std.ExtTreeSet.mem_union_iff.2 (.inr (hsub s hs)),
        List.mem_cons_of_mem _ hpast⟩

/-! ## The solved facts -/

variable {g : Graph} {calls : CallString} {past : List ContextNode}

theorem distributes_availableExpressions (c : CandidateTable) (key : String)
    (sites : Std.ExtTreeSet Site) :
    (availableExpressions c).Distributes fun fact =>
      ∃ some', fact[key]? = some some' ∧ ∀ s ∈ some', s ∈ sites := by
  intro x y
  have hmeet : (availableExpressions c).meet x y = x.meet y := rfl
  simp only [hmeet, AvailableSet.getElem?_meet]
  rcases x[key]? with _ | left <;> rcases y[key]? with _ | right <;>
    simp [Std.ExtTreeSet.mem_union_iff, or_imp, forall_and]

/-- What the solution says of a node is sound for all paths to it. -/
theorem soundOn_before (hg : g.WellFormed)
    (hfact : ((availableExpressions c).solve g).before[id]? = some fact)
    (hpath : g.ContextPath ((id, calls) :: past)) : c.SoundOn ((id, calls) :: past) fact := by
  have stable := (bounded_availableExpressions c).stable (lawful_availableExpressions c) hg
  obtain ⟨I, hI, hsound⟩ := stable.sound (sound_availableExpressions c g) hpath
  intro key sites hkey
  have hall := ((distributes_availableExpressions c key sites).before_iff hfact).1
    ⟨sites, hkey, fun _ hs => hs⟩
  obtain ⟨sites', hkey', hsub⟩ := hall calls I hI
  obtain ⟨havailable, s, hs, hpast⟩ := hsound key sites' hkey'
  exact ⟨havailable, s, hsub s hs, hpast⟩

/-- A node with a fact is reached by a path. -/
theorem exists_contextPath_of_before
    (hfact : ((availableExpressions c).solve g).before[id]? = some fact) :
    ∃ calls past, g.ContextPath ((id, calls) :: past) := by
  obtain ⟨calls, I, hI⟩ := ForwardAnalysis.isSome_before.1 (Option.isSome_of_eq_some hfact)
  have reached := ForwardAnalysis.kept_contextPath (availableExpressions c) g
  exact ⟨calls, reached.fixpoint _ I hI⟩

theorem valid_before (hfact : ((availableExpressions c).solve g).before[id]? = some fact) :
    c.Valid fact := by
  have valid : (availableExpressions c).Kept g fun _ I => c.Valid I :=
    { entry := (bounded_availableExpressions c).atEntry
      step := fun hI _ => (bounded_availableExpressions c).transfer _ hI
      meet := fun hI hJ => hI.meet hJ }
  exact valid.before hfact

end CandidateTable
end LineBasic
