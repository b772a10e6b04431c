import LineBasic.Proofs.Flow.AvailableExpressions
import LineBasic.Symbol.Build

/-!
# Common subexpressions

An expression that is found to be available has been evaluated on every run to its node, or earlier
in the statement, and nothing that its key reads has been written since. It is in a record
(`CommonSubexpression.exists_mem_ofSolution`), and a record joins at least two sites: on the first
visit of a node its own sites are not yet known.
-/

namespace LineBasic

open CandidateTable

variable {c : CandidateTable} {g : Graph} {id : NodeId} {fact : AvailableSet} {r : Recomputation}

/-! ## What is found at a node -/

theorem CandidateTable.foundAt_of_mem_scan (hr : r ∈ (c.scan id fact).2) :
    c.FoundAt id fact r := by
  obtain ⟨-, -, -, hfound⟩ := c.computed_scan id fact
  exact hfound r hr

/-- The key was known before the node, or it is that of an earlier candidate of the node. -/
theorem CandidateTable.FoundAt.known_or_earlier (h : c.FoundAt id fact r) :
    (∃ sites, fact[r.key]? = some sites) ∨ ∃ position < r.site.2, c.KeyAt (id, position) r.key := by
  obtain ⟨fact', hfact', havailable⟩ := h.available
  rcases hold : fact[r.key]? with _ | sites
  · obtain ⟨⟨_, position⟩, -, rfl, hlt, hkeyAt⟩ := hfact'.fresh havailable hold
    exact .inr ⟨position, hlt, hkeyAt⟩
  · exact .inl ⟨sites, rfl⟩

theorem CandidateTable.FoundAt.keyAt_of_mem (h : c.FoundAt id fact r) (hvalid : c.Valid fact)
    {s : Site} (hs : s ∈ r.available) : c.KeyAt s r.key := by
  obtain ⟨fact', hfact', havailable⟩ := h.available
  exact (hvalid.computed hfact' r.key r.available havailable).2 s hs

/-- Sites of one node are ordered by their positions. -/
theorem compare_site (id : NodeId) (m n : Nat) :
    compare ((id, m) : Site) (id, n) = compare m n := by
  change (compare id id).then (compare m n) = _
  rw [Std.compare_self, Ordering.eq_then]

/--
The first site of what is found is that of another computation: if it were that of the found one,
the key would have been known before the node, with sites of other nodes too.
-/
theorem CandidateTable.FoundAt.exists_ne_origin (h : c.FoundAt id fact r)
    {past : List NodeId} (hpast : id ∉ past)
    (hsound : ∀ sites, fact[r.key]? = some sites → ∃ s : Site, s ∈ sites ∧ s.1 ∈ past)
    {origin : Site} (horigin : r.available.min? = some origin) :
    ∃ s : Site, (s ∈ r.available ∨ s = r.site) ∧ s ≠ origin := by
  by_cases hsite : r.site = origin
  · obtain rfl := hsite
    obtain ⟨fact', hfact', havailable⟩ := h.available
    rcases hold : fact[r.key]? with _ | sites
    · obtain ⟨⟨id', position⟩, hs, hid, hlt, -⟩ := hfact'.fresh havailable hold
      obtain rfl : id' = id := hid
      have hsite : r.site = (id', r.site.2) := Prod.ext h.node rfl
      have hle := (Std.ExtTreeSet.min?_eq_some_iff_mem_and_forall.1 horigin).2 _ hs
      rw [hsite, compare_site, Nat.isLE_compare] at hle
      exact absurd hle (Nat.not_le.2 hlt)
    · obtain ⟨s, hs, hsPast⟩ := hsound sites hold
      obtain ⟨sites', hsites', hsub⟩ := hfact'.keeps hold
      obtain rfl := Option.some.inj (havailable.symm.trans hsites')
      refine ⟨s, .inl (hsub s hs), ?_⟩
      rintro rfl
      exact hpast (h.node ▸ hsPast)
  · exact ⟨r.site, .inr rfl, hsite⟩

/-! ## Records -/

namespace CommonSubexpression

theorem mem_sitesOf {keyed : List ((String × Site) × Recomputation)} {group : String × Site}
    {s : Site} :
    s ∈ sitesOf keyed group ↔ ∃ r, (group, r) ∈ keyed ∧ (s ∈ r.available ∨ s = r.site) := by
  have collect (list : List ((String × Site) × Recomputation)) (sites : Std.ExtTreeSet Site) :
      s ∈ list.foldl (fun sites entry => (sites ∪ entry.2.available).insert entry.2.site) sites ↔
        s ∈ sites ∨ ∃ entry ∈ list, s ∈ entry.2.available ∨ s = entry.2.site := by
    induction list generalizing sites with
    | nil => simp
    | cons entry list ih =>
      rw [List.foldl_cons, ih, Std.ExtTreeSet.mem_insert, Std.ExtTreeSet.mem_union_iff,
        Std.compare_eq_iff_eq, List.exists_mem_cons_iff, eq_comm, or_left_comm, or_assoc]
      exact or_congr_right (or_congr_left or_comm)
  rw [sitesOf]
  refine (collect _ ∅).trans ?_
  simp only [Std.ExtTreeSet.not_mem_empty, false_or, List.mem_filter, beq_iff_eq]
  constructor
  · rintro ⟨⟨_, r⟩, ⟨hmem, rfl⟩, hs⟩
    exact ⟨r, hmem, hs⟩
  · rintro ⟨r, hmem, hs⟩
    exact ⟨(group, r), ⟨hmem, rfl⟩, hs⟩

/-- The recomputations with their keys and first sites. -/
theorem exists_of_mem_assemble {found : List Recomputation} {record : CommonSubexpression}
    (h : record ∈ assemble g c found) :
    ∃ key origin sites, record = ofSites g c key origin sites ∧
      ∃ r ∈ found, r.key = key ∧ r.available.min? = some origin ∧
        (∀ s : Site, s ∈ r.available ∨ s = r.site → s ∈ sites) ∧
        ∀ s ∈ sites, ∃ r' ∈ found, r'.key = key ∧ (s ∈ r'.available ∨ s = r'.site) := by
  rw [assemble, List.mem_mergeSort, List.mem_map] at h
  obtain ⟨⟨key, origin⟩, hgroup, rfl⟩ := h
  have ofKeyed {group : String × Site} {r : Recomputation}
      (hr : (group, r) ∈ found.filterMap fun r =>
        r.available.min?.map fun origin => ((r.key, origin), r)) :
      r ∈ found ∧ r.key = group.1 ∧ r.available.min? = some group.2 := by
    obtain ⟨r', hr', heq⟩ := List.mem_filterMap.1 hr
    obtain ⟨origin, horigin, heq⟩ := Option.map_eq_some_iff.1 heq
    obtain ⟨rfl, rfl⟩ := Prod.mk.inj heq
    exact ⟨hr', rfl, horigin⟩
  obtain ⟨⟨group, r⟩, hr, hfst⟩ := List.mem_map.1 (List.mem_eraseDups.1 hgroup)
  obtain rfl : group = (key, origin) := hfst
  obtain ⟨hfound, hkey, hmin⟩ := ofKeyed hr
  refine ⟨key, origin, _, rfl, r, hfound, hkey, hmin, fun s hs => mem_sitesOf.2 ⟨r, hr, hs⟩,
    fun s hs => ?_⟩
  obtain ⟨r', hr', hs⟩ := mem_sitesOf.1 hs
  obtain ⟨hfound', hkey', -⟩ := ofKeyed hr'
  exact ⟨r', hfound', hkey', hs⟩

/-- Whatever is found to be available at a node is in a record. -/
theorem exists_mem_ofSolution {solution : Solution AvailableSet} {n : Node} (hn : n ∈ g.nodes)
    (hfact : solution.before[n.id]? = some fact) (hr : r ∈ (c.scan n.id fact).2) {s : Site}
    (hs : s ∈ r.available) :
    ∃ origin sites, ofSites g c r.key origin sites ∈ ofSolution g c solution ∧
      r.site ∈ sites := by
  obtain ⟨origin, horigin⟩ := Option.isSome_iff_exists.1 (Std.ExtTreeSet.isSome_min?_of_mem hs)
  have hfound : r ∈ g.nodes.toList.flatMap fun n =>
      (solution.before[n.id]?).elim [] fun fact => (c.scan n.id fact).2 :=
    List.mem_flatMap.2 ⟨n, Array.mem_toList_iff.2 hn, by rw [hfact]; exact hr⟩
  have hkeyed : ((r.key, origin), r) ∈ (g.nodes.toList.flatMap fun n =>
      (solution.before[n.id]?).elim [] fun fact => (c.scan n.id fact).2).filterMap fun r =>
        r.available.min?.map fun origin => ((r.key, origin), r) :=
    List.mem_filterMap.2 ⟨r, hfound, by rw [horigin, Option.map_some]⟩
  refine ⟨origin, _, ?_, mem_sitesOf.2 ⟨r, hkeyed, .inr rfl⟩⟩
  rw [ofSolution, assemble, List.mem_mergeSort]
  exact List.mem_map.2 ⟨_, List.mem_eraseDups.2 (List.mem_map_of_mem hkeyed), rfl⟩

/-- A record joins two sites, and all its sites have its key. -/
theorem joins_two_sites (hg : g.WellFormed) {record : CommonSubexpression}
    (h : record ∈ ofSolution g c ((availableExpressions c).solve g)) :
    ∃ key origin sites, record = ofSites g c key origin sites ∧ (∀ s ∈ sites, c.KeyAt s key) ∧
      origin ∈ sites ∧ ∃ other ∈ sites, other ≠ origin := by
  have ofFound {r : Recomputation} (hr : r ∈ g.nodes.toList.flatMap fun n =>
      (((availableExpressions c).solve g).before[n.id]?).elim [] fun fact =>
        (c.scan n.id fact).2) :
      ∃ id fact, ((availableExpressions c).solve g).before[id]? = some fact ∧
        c.FoundAt id fact r := by
    obtain ⟨n, -, hr⟩ := List.mem_flatMap.1 hr
    rcases hfact : ((availableExpressions c).solve g).before[n.id]? with _ | fact
    · simp [hfact] at hr
    · rw [hfact] at hr
      exact ⟨n.id, fact, hfact, foundAt_of_mem_scan hr⟩
  obtain ⟨key, origin, sites, rfl, r, hr, rfl, hmin, hsites, hall⟩ := exists_of_mem_assemble h
  refine ⟨r.key, origin, sites, rfl, fun s hs => ?_, ?_, ?_⟩
  · obtain ⟨r', hr', hkey, hs⟩ := hall s hs
    obtain ⟨id, fact, hfact, hfound⟩ := ofFound hr'
    rcases hs with hs | rfl
    · exact hkey ▸ hfound.keyAt_of_mem (valid_before hfact) hs
    · exact hkey ▸ hfound.keyAt
  · exact hsites origin (.inl (Std.ExtTreeSet.min?_mem hmin))
  · obtain ⟨id, fact, hfact, hfound⟩ := ofFound hr
    obtain ⟨calls, past, hpath⟩ := exists_contextPath_of_before hfact
    obtain ⟨⟨id', calls'⟩, past', hid, hfirst, hpast⟩ :=
      hpath.exists_first (P := fun d => d.1 = id) List.mem_cons_self rfl
    obtain rfl : id' = id := hid
    have hpast' : id' ∉ past'.map Prod.fst := by
      rintro hmem
      obtain ⟨d, hd, hid⟩ := List.mem_map.1 hmem
      exact hpast d hd hid
    obtain ⟨s, hs, hne⟩ := hfound.exists_ne_origin hpast'
      (fun sites hkey => (soundOn_before hg hfact hfirst r.key sites hkey).2) hmin
    exact ⟨s, hsites s hs, hne⟩

end CommonSubexpression

/--
Whatever is found to be available at a node is a candidate of the node, and on every run that
reaches the node its key has been evaluated, earlier in the statement or at some node since which
nothing that the key reads has been written. A record joins at least two sites of its key.
-/
theorem commonSubexpressions_sound (p : Program) (t : SymbolTable) :
    let g := Graph.build p
    let effects := g.effects t
    let c := CandidateTable.build effects t
    (∀ id fact, ((availableExpressions c).solve g).before[id]? = some fact →
      ∀ r ∈ (c.scan id fact).2, r.site.1 = id ∧ c.KeyAt r.site r.key ∧
        ∀ stack past, g.StackRun ((id, stack) :: past) →
          (∃ position < r.site.2, c.KeyAt (id, position) r.key) ∨
            ∃ since m before, past.map Prod.fst = since ++ m :: before ∧
              EvaluatedAt effects t m r.key ∧
              ∀ d ∈ m :: since, ∀ tag, WritesTagAt effects d tag → ¬ c.KeyReads r.key tag) ∧
    ∀ record ∈ findCommonSubexpressions g effects t, ∃ key origin sites,
      record = .ofSites g c key origin sites ∧ (∀ s ∈ sites, c.KeyAt s key) ∧
        origin ∈ sites ∧ ∃ other ∈ sites, other ≠ origin := by
  intro g effects c
  have hg : g.WellFormed := Graph.wellFormed_build p
  refine ⟨fun id fact hfact r hr => ?_, fun record h => CommonSubexpression.joins_two_sites hg h⟩
  have hfound := foundAt_of_mem_scan hr
  refine ⟨hfound.node, hfound.keyAt, fun stack past hrun => ?_⟩
  rcases hfound.known_or_earlier with ⟨sites, hsites⟩ | hearlier
  · obtain ⟨calls, past', hpath, hpast⟩ := hrun.exists_contextPath_to hg
    obtain ⟨since, m, before, hnodes, ⟨s, rfl, hs⟩, hlive⟩ :=
      (soundOn_before hg hfact hpath r.key sites hsites).1
    refine .inr ⟨since, s.1, before, hpast.trans hnodes, evaluatedAt_of_keyAt hs,
      fun d hd tag hwrites hreads => ?_⟩
    exact hlive d hd (killedAt_build_iff.2 ⟨tag, hwrites, hreads⟩)
  · exact .inl hearlier

namespace RepeatedSum

/-- The expression `A + B`. -/
def sum : Expr Float := .binary .add (.scalar ⟨"A"⟩) (.scalar ⟨"B"⟩)

/-- `X = A + B` on one line, and `Y = A + B` on the next. -/
def program : Program :=
  ⟨[⟨10, [.command ⟨10, 4⟩ (.assign (.scalar ⟨"X"⟩) sum)], 1⟩,
    ⟨20, [.command ⟨20, 4⟩ (.assign (.scalar ⟨"Y"⟩) sum)], 2⟩]⟩

def graph : Graph := .build program

def table : SymbolTable := (SymbolTable.build program).table

def candidates : CandidateTable := .build (graph.effects table) table

end RepeatedSum

open RepeatedSum in
/-- The sum on the second line has been evaluated on the first one, and a record joins both. -/
theorem exists_commonSubexpression_repeatedSum :
    ∃ fact r, ((availableExpressions candidates).solve graph).before[(3 : NodeId)]? = some fact ∧
      r ∈ (candidates.scan 3 fact).2 ∧ r.site = (3, 0) ∧
      (∃ since m before, [2, Graph.entry] = since ++ m :: before ∧
        EvaluatedAt (graph.effects table) table m r.key) ∧
      ∃ record ∈ findCommonSubexpressions graph (graph.effects table) table,
        ∃ key origin sites, record = .ofSites graph candidates key origin sites ∧
          ∃ other ∈ sites, other ≠ origin := by
  obtain ⟨sound, joins⟩ := commonSubexpressions_sound program table
  have found : (((availableExpressions candidates).solve graph).before[(3 : NodeId)]?).any
      (fun fact => (candidates.scan 3 fact).2.any fun r =>
        r.site == (3, 0) && r.available.contains (2, 0)) = true := by
    decide +kernel
  obtain ⟨fact, hfact, found⟩ := (Option.any_eq_true ..).1 found
  obtain ⟨r, hr, hfound⟩ := List.any_eq_true.1 found
  rw [Bool.and_eq_true, beq_iff_eq, Std.ExtTreeSet.contains_iff_mem] at hfound
  obtain ⟨hsite, havailable⟩ := hfound
  refine ⟨fact, r, hfact, hr, hsite, ?_, ?_⟩
  · have first : graph.StackStep (Graph.entry, []) (2, []) :=
      Graph.stackStep_of_normal program (by decide +kernel) []
    have second : graph.StackStep (2, []) (3, []) :=
      Graph.stackStep_of_normal program (by decide +kernel) []
    have run : graph.StackRun [(3, []), (2, []), (Graph.entry, [])] :=
      (History.start.step first).step second
    obtain ⟨-, -, hruns⟩ := sound 3 fact hfact r hr
    rcases hruns [] _ run with ⟨position, hlt, -⟩ | ⟨since, m, before, hpast, heval, -⟩
    · rw [hsite] at hlt
      cases hlt
    · exact ⟨since, m, before, hpast, heval⟩
  · have node : (graph.node? 3).isSome := by decide +kernel
    obtain ⟨n, hn⟩ := Option.isSome_iff_exists.1 node
    have hid : n.id = 3 := (Graph.wellFormed_build program).id_eq hn
    rw [← hid] at hfact hr
    obtain ⟨origin, sites, hrecord, -⟩ := CommonSubexpression.exists_mem_ofSolution
      (Array.mem_of_getElem? hn) hfact hr havailable
    obtain ⟨key, first, joined, heq, -, -, hother⟩ := joins _ hrecord
    exact ⟨_, hrecord, key, first, joined, heq, hother⟩

end LineBasic
