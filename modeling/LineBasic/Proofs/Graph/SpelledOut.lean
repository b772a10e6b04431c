import Mathlib.Order.Monotone.Basic
import LineBasic.Proofs.Graph.Renumbering
import LineBasic.Symbol.Build

/-!
# Arms spelled out

An arm that is a line number stands for a `GOTO`, and `Program.spelledOut` writes it as one. Then
there are more statements, and the others get new numbers (`Program.spelledId`). The statements as
spelled out are paired with those that they stand for (`Program.pairs`); the numbers, the targets of
jumps and the loops of both programs are compared pair by pair.
-/

namespace LineBasic

mutual

/-- The statement with a `GOTO` for each arm that is a line number; columns are left out. -/
def Statement.spelledOut : Statement → Statement
  | .command place body => .command ⟨place.line, 0⟩ body
  | .conditional place condition onTrue none =>
    .conditional ⟨place.line, 0⟩ condition (onTrue.spelledOut place.line) none
  | .conditional place condition onTrue (some onFalse) =>
    .conditional ⟨place.line, 0⟩ condition (onTrue.spelledOut place.line)
      (some (onFalse.spelledOut place.line))

/-- An arm of a statement on a line. -/
def Arm.spelledOut (line : Nat) : Arm → Arm
  | .line number => .block [.command ⟨line, 0⟩ (.goto number)]
  | .block statements => .block (spelledOutList statements)

def spelledOutList : List Statement → List Statement
  | [] => []
  | s :: rest => s.spelledOut :: spelledOutList rest

end

/-- The program with a `GOTO` for each arm that is a line number; columns are left out. -/
def Program.spelledOut (p : Program) : Program :=
  ⟨p.lines.map fun l => { l with statements := spelledOutList l.statements }⟩

/-- A statement as spelled out, with the one that it stands for. -/
def Statement.pair (id id' next next' depth : Nat) (s : Statement) : Option Placed × Placed :=
  (some ⟨s, id, depth, next⟩, ⟨s.spelledOut, id', depth, next'⟩)

mutual

/-- The statements as spelled out with those that they stand for, under the numbers of both. A
`GOTO` that is spelled out stands for no statement. -/
def Statement.pairs (id id' next next' depth : Nat) : Statement → List (Option Placed × Placed)
  | .command place body => [(Statement.command place body).pair id id' next next' depth]
  | .conditional place condition onTrue none =>
    (Statement.conditional place condition onTrue none).pair id id' next next' depth ::
      onTrue.pairs place.line (id + 1) (id' + 1) next next' (depth + 1)
  | .conditional place condition onTrue (some onFalse) =>
    (Statement.conditional place condition onTrue (some onFalse)).pair id id' next next' depth ::
      (onTrue.pairs place.line (id + 1) (id' + 1) next next' (depth + 1) ++
        onFalse.pairs place.line (id + 1 + onTrue.nodeCount)
          (id' + 1 + (onTrue.spelledOut place.line).nodeCount) next next' (depth + 1))

def Arm.pairs (line id id' next next' depth : Nat) : Arm → List (Option Placed × Placed)
  | .line number => [(none, ⟨.command ⟨line, 0⟩ (.goto number), id', depth, next'⟩)]
  | .block statements => pairsOfList id id' next next' depth statements

def pairsOfList (id id' next next' depth : Nat) : List Statement → List (Option Placed × Placed)
  | [] => []
  | s :: rest =>
    let after := id + s.nodeCount
    let after' := id' + s.spelledOut.nodeCount
    s.pairs id id' (if rest.isEmpty then next else after) (if rest.isEmpty then next' else after')
      depth ++ pairsOfList after after' next next' depth rest

end

/-! ## Statements -/

section Statements

variable (id id' next next' depth : Nat)

theorem Statement.command?_spelledOut (s : Statement) : s.spelledOut.command? = s.command? := by
  rcases s with _ | ⟨_, _, _, _ | _⟩ <;> rfl

theorem Statement.line_spelledOut (s : Statement) : s.spelledOut.line = s.line := by
  rcases s with _ | ⟨_, _, _, _ | _⟩ <;> rfl

theorem isEmpty_spelledOutList (statements : List Statement) :
    (spelledOutList statements).isEmpty = statements.isEmpty := by
  cases statements <;> rfl

theorem spelledOutList_append (before after : List Statement) :
    spelledOutList (before ++ after) = spelledOutList before ++ spelledOutList after := by
  induction before with
  | nil => rfl
  | cons s rest ih => rw [List.cons_append, spelledOutList, spelledOutList, ih, List.cons_append]

mutual

theorem Statement.map_snd_pairs (id id' next next' depth : Nat) :
    ∀ s : Statement,
      (s.pairs id id' next next' depth).map Prod.snd = s.spelledOut.placed id' next' depth
  | .command place body => rfl
  | .conditional place condition onTrue none => by
    rw [Statement.pairs, Statement.spelledOut, Statement.placed, List.map_cons,
      onTrue.map_snd_pairs]
    rfl
  | .conditional place condition onTrue (some onFalse) => by
    rw [Statement.pairs, Statement.spelledOut, Statement.placed, List.map_cons, List.map_append,
      onTrue.map_snd_pairs, onFalse.map_snd_pairs]
    rfl

theorem Arm.map_snd_pairs (line id id' next next' depth : Nat) :
    ∀ a : Arm,
      (a.pairs line id id' next next' depth).map Prod.snd =
        (a.spelledOut line).placed id' next' depth
  | .line number => rfl
  | .block statements => by
    rw [Arm.pairs, Arm.spelledOut, Arm.placed]
    exact map_snd_pairsOfList id id' next next' depth statements

/-- The second ones of the pairs are the statements as spelled out. -/
theorem map_snd_pairsOfList (id id' next next' depth : Nat) :
    ∀ statements : List Statement,
      (pairsOfList id id' next next' depth statements).map Prod.snd =
        placedList id' next' depth (spelledOutList statements)
  | [] => rfl
  | s :: rest => by
    rw [pairsOfList, spelledOutList, placedList, List.map_append, s.map_snd_pairs,
      map_snd_pairsOfList _ _ next next' depth rest, isEmpty_spelledOutList]

end

mutual

theorem Statement.filterMap_fst_pairs (id id' next next' depth : Nat) :
    ∀ s : Statement,
      (s.pairs id id' next next' depth).filterMap Prod.fst = s.placed id next depth
  | .command place body => rfl
  | .conditional place condition onTrue none => by
    rw [Statement.pairs, Statement.placed,
      ← onTrue.filterMap_fst_pairs place.line _ (id' + 1) _ next']
    rfl
  | .conditional place condition onTrue (some onFalse) => by
    rw [Statement.pairs, Statement.placed,
      ← onTrue.filterMap_fst_pairs place.line _ (id' + 1) _ next',
      ← onFalse.filterMap_fst_pairs place.line _
        (id' + 1 + (onTrue.spelledOut place.line).nodeCount) _ next',
      ← List.filterMap_append]
    rfl

theorem Arm.filterMap_fst_pairs (line id id' next next' depth : Nat) :
    ∀ a : Arm,
      (a.pairs line id id' next next' depth).filterMap Prod.fst = a.placed id next depth
  | .line number => rfl
  | .block statements => by
    rw [Arm.pairs, Arm.placed]
    exact filterMap_fst_pairsOfList id id' next next' depth statements

/-- The first ones of the pairs are the statements of the program. -/
theorem filterMap_fst_pairsOfList (id id' next next' depth : Nat) :
    ∀ statements : List Statement,
      (pairsOfList id id' next next' depth statements).filterMap Prod.fst =
        placedList id next depth statements
  | [] => rfl
  | s :: rest => by
    rw [pairsOfList, placedList, List.filterMap_append, s.filterMap_fst_pairs,
      filterMap_fst_pairsOfList _ _ next next' depth rest]

end

theorem Statement.pair_mem_pairs (s : Statement) :
    s.pair id id' next next' depth ∈ s.pairs id id' next next' depth := by
  rcases s with _ | ⟨_, _, _, _ | _⟩ <;> exact List.mem_cons_self

theorem pairsOfList_append (before after : List Statement) :
    pairsOfList id id' next next' depth (before ++ after) =
      pairsOfList id id' (if after.isEmpty then next else id + nodeCountOfList before)
          (if after.isEmpty then next' else id' + nodeCountOfList (spelledOutList before)) depth
          before ++
        pairsOfList (id + nodeCountOfList before) (id' + nodeCountOfList (spelledOutList before))
          next next' depth after := by
  induction before generalizing id id' with
  | nil => simp [pairsOfList, spelledOutList, nodeCountOfList]
  | cons s rest ih =>
    rw [List.cons_append, pairsOfList, pairsOfList, ih, spelledOutList, nodeCountOfList,
      nodeCountOfList, ← Nat.add_assoc, ← Nat.add_assoc, List.append_assoc]
    congr 2 <;> cases rest <;> simp [spelledOutList, nodeCountOfList]

end Statements

/-- The line number is an arm of the statement. -/
def Statement.HasLineArm (s : Statement) (number : Nat) : Prop :=
  ∃ place condition onTrue onFalse, s = .conditional place condition onTrue onFalse ∧
    (onTrue = .line number ∨ onFalse = some (.line number))

/-- The statement is the `GOTO` for an arm of another one. -/
def Statement.SpellsArmOf (s owner : Statement) : Prop :=
  ∃ number, owner.HasLineArm number ∧ s = .command ⟨owner.line, 0⟩ (.goto number)

mutual

theorem Statement.exists_spellsArmOf {q' : Placed} (id id' next next' depth : Nat) :
    ∀ s : Statement, (none, q') ∈ s.pairs id id' next next' depth →
      ∃ q ∈ s.placed id next depth, q'.statement.SpellsArmOf q.statement
  | .command place body => by
    intro h
    cases List.mem_singleton.1 h
  | .conditional place condition onTrue none => by
    intro h
    rw [Statement.placed]
    rcases onTrue.exists_spellsArmOf place.line _ _ _ _ _ ((List.mem_cons.1 h).resolve_left nofun)
      with ⟨number, rfl, hs⟩ | ⟨q, hq, hs⟩
    · exact ⟨_, List.mem_cons_self, number, ⟨_, _, _, _, rfl, .inl rfl⟩, hs⟩
    · exact ⟨q, List.mem_cons_of_mem _ hq, hs⟩
  | .conditional place condition onTrue (some onFalse) => by
    intro h
    rw [Statement.placed]
    rcases List.mem_append.1 ((List.mem_cons.1 h).resolve_left nofun) with h | h
    · rcases onTrue.exists_spellsArmOf place.line _ _ _ _ _ h with ⟨number, rfl, hs⟩ | ⟨q, hq, hs⟩
      · exact ⟨_, List.mem_cons_self, number, ⟨_, _, _, _, rfl, .inl rfl⟩, hs⟩
      · exact ⟨q, List.mem_cons_of_mem _ (List.mem_append_left _ hq), hs⟩
    · rcases onFalse.exists_spellsArmOf place.line _ _ _ _ _ h with ⟨number, rfl, hs⟩ | ⟨q, hq, hs⟩
      · exact ⟨_, List.mem_cons_self, number, ⟨_, _, _, _, rfl, .inr rfl⟩, hs⟩
      · exact ⟨q, List.mem_cons_of_mem _ (List.mem_append_right _ hq), hs⟩

theorem Arm.exists_spellsArmOf {q' : Placed} (line id id' next next' depth : Nat) : ∀ a : Arm,
    (none, q') ∈ a.pairs line id id' next next' depth →
      (∃ number, a = .line number ∧ q'.statement = .command ⟨line, 0⟩ (.goto number)) ∨
        ∃ q ∈ a.placed id next depth, q'.statement.SpellsArmOf q.statement
  | .line number => by
    intro h
    cases List.mem_singleton.1 h
    exact .inl ⟨number, rfl, rfl⟩
  | .block statements => fun h =>
    .inr (exists_spellsArmOf_of_list id id' next next' depth statements h)

/-- What stands for no statement is the `GOTO` for an arm. -/
theorem exists_spellsArmOf_of_list {q' : Placed} (id id' next next' depth : Nat) :
    ∀ statements : List Statement,
      (none, q') ∈ pairsOfList id id' next next' depth statements →
        ∃ q ∈ placedList id next depth statements, q'.statement.SpellsArmOf q.statement
  | [] => nofun
  | s :: rest => by
    intro h
    rw [placedList]
    rcases List.mem_append.1 h with h | h
    · obtain ⟨q, hq, hs⟩ := s.exists_spellsArmOf _ _ _ _ _ h
      exact ⟨q, List.mem_append_left _ hq, hs⟩
    · obtain ⟨q, hq, hs⟩ := exists_spellsArmOf_of_list _ _ _ _ _ rest h
      exact ⟨q, List.mem_append_right _ hq, hs⟩

end

/-! ## Numbers -/

/-- The place in a list of pairs of what stands for the statement with index `k`. -/
def pairIndex : List (Option Placed × Placed) → Nat → Nat
  | [], k => k
  | (none, _) :: rest, k => pairIndex rest k + 1
  | (some _, _) :: _, 0 => 0
  | (some _, _) :: rest, k + 1 => pairIndex rest k + 1

theorem strictMono_pairIndex (pairs : List (Option Placed × Placed)) :
    StrictMono (pairIndex pairs) := by
  induction pairs with
  | nil => exact strictMono_id
  | cons first rest ih =>
    rcases first with ⟨_ | q, q'⟩
    · exact fun i j hij => Nat.succ_lt_succ (ih hij)
    · refine strictMono_nat_of_lt_succ fun k => ?_
      cases k with
      | zero => exact Nat.succ_pos _
      | succ k => exact Nat.succ_lt_succ (ih (Nat.lt_succ_self k))

section Numbers

variable {pairs : List (Option Placed × Placed)} {first first' count count' : Nat}
  (hfst : (pairs.filterMap Prod.fst).map Placed.id = List.range' first count)
  (hsnd : (pairs.map Prod.snd).map Placed.id = List.range' first' count')
include hfst hsnd

/-- If the statements of both programs are numbered without gaps, what stands for a statement has
the number of its place. -/
theorem exists_id_eq_of_mem_pairs {q q' : Placed} (h : (some q, q') ∈ pairs) :
    ∃ k, q.id = first + k ∧ q'.id = first' + pairIndex pairs k := by
  induction pairs generalizing first first' count count' with
  | nil => cases h
  | cons r rest ih =>
    cases count' with
    | zero => cases hsnd
    | succ count' =>
      obtain ⟨hfirst', hrest'⟩ := List.cons.inj hsnd
      rcases r with ⟨_ | q₀, q₀'⟩
      · obtain ⟨k, hk, hk'⟩ := ih hfst hrest' ((List.mem_cons.1 h).resolve_left nofun)
        exact ⟨k, hk, by rw [hk', pairIndex, Nat.add_assoc, Nat.add_comm 1]⟩
      · cases count with
        | zero => cases hfst
        | succ count =>
          obtain ⟨hfirst, hrest⟩ := List.cons.inj hfst
          rcases List.mem_cons.1 h with heq | h
          · obtain ⟨rfl, rfl⟩ : q = q₀ ∧ q' = q₀' := by simpa using heq
            exact ⟨0, hfirst, hfirst'⟩
          · obtain ⟨k, hk, hk'⟩ := ih hrest hrest' h
            refine ⟨k + 1, by rw [hk, Nat.add_assoc, Nat.add_comm 1], ?_⟩
            rw [hk', pairIndex, Nat.add_assoc, Nat.add_comm 1]

/-- A `GOTO` that is spelled out has another number. -/
theorem id_ne_of_mem_pairs {q' : Placed} (h : (none, q') ∈ pairs) (k : Nat) :
    q'.id ≠ first' + pairIndex pairs k := by
  induction pairs generalizing first first' count count' k with
  | nil => cases h
  | cons r rest ih =>
    cases count' with
    | zero => cases hsnd
    | succ count' =>
      obtain ⟨hfirst', hrest'⟩ := List.cons.inj hsnd
      have later (i : Nat) : first' + (pairIndex rest i + 1) = first' + 1 + pairIndex rest i := by
        rw [Nat.add_assoc, Nat.add_comm 1]
      rcases r with ⟨_ | q₀, q₀'⟩
      · rw [pairIndex]
        rcases List.mem_cons.1 h with heq | h
        · obtain rfl : q' = q₀' := by simpa using heq
          rw [show q'.id = first' from hfirst']
          exact Nat.ne_of_lt (Nat.lt_add_of_pos_right (Nat.succ_pos _))
        · rw [later]
          exact ih hfst hrest' h k
      · have h := (List.mem_cons.1 h).resolve_left nofun
        cases count with
        | zero => cases hfst
        | succ count =>
          obtain ⟨hfirst, hrest⟩ := List.cons.inj hfst
          cases k with
          | succ k =>
            rw [pairIndex, later]
            exact ih hrest hrest' h k
          | zero =>
            have hmem : q'.id ∈ List.range' (first' + 1) count' :=
              hrest' ▸ List.mem_map_of_mem (List.mem_map_of_mem h)
            exact Nat.ne_of_gt (List.mem_range'_1.1 hmem).1

end Numbers

/-- What is related stays so while the statements of both programs are gone through, if the two of a
pair keep it related and a `GOTO` that is spelled out does. -/
theorem foldl_pairs {σ : Type} {f : σ → Placed → σ} {R : σ → σ → Prop}
    {pairs : List (Option Placed × Placed)}
    (hpair : ∀ {q q'}, (some q, q') ∈ pairs → ∀ {s s'}, R s s' → R (f s q) (f s' q'))
    (hjump : ∀ {q'}, (none, q') ∈ pairs → ∀ {s s'}, R s s' → R s (f s' q')) {s s' : σ}
    (h : R s s') : R ((pairs.filterMap Prod.fst).foldl f s) ((pairs.map Prod.snd).foldl f s') := by
  induction pairs generalizing s s' with
  | nil => exact h
  | cons r rest ih =>
    have later {s s' : σ} (h : R s s') :=
      ih (fun hr => hpair (List.mem_cons_of_mem _ hr)) (fun hr => hjump (List.mem_cons_of_mem _ hr)) h
    rcases r with ⟨_ | q, q'⟩
    · exact later (hjump List.mem_cons_self h)
    · exact later (hpair List.mem_cons_self h)

/-! ## Places -/

section Places

variable {head : NodeId → NodeId} {pairs : List (Option Placed × Placed)}

/-- The number `n` is that of a `GOTO` that is spelled out. -/
def JumpIn (pairs : List (Option Placed × Placed)) (n : NodeId) (line : Nat) : Prop :=
  ∃ q', (none, q') ∈ pairs ∧ q'.id = n ∧ q'.statement.command? = some (.goto line)

/-- The first statement of an arm as spelled out is the `GOTO` for the line, or it stands for the
first statement of the arm. -/
def Arm.LeadsTo (pairs : List (Option Placed × Placed)) (head : NodeId → NodeId)
    (first first' : NodeId) : Arm → Prop
  | .line number => JumpIn pairs first' number
  | .block [] => True
  | .block (_ :: _) => first' = head first

/-- A statement stands for another one where both are in their programs. -/
structure Placed.Spells (pairs : List (Option Placed × Placed)) (head : NodeId → NodeId)
    (q' q : Placed) : Prop extends q'.Twin head q where
  statement : q'.statement = q.statement.spelledOut
  depth_eq : q'.depth = q.depth
  onTrue : ∀ {place condition onTrue onFalse},
    q.statement = .conditional place condition onTrue onFalse →
      onTrue.LeadsTo pairs head (q.id + 1) (q'.id + 1)
  onFalse : ∀ {place condition onTrue onFalse},
    q.statement = .conditional place condition onTrue (some onFalse) →
      onFalse.LeadsTo pairs head (q.id + 1 + onTrue.nodeCount)
        (q'.id + 1 + (onTrue.spelledOut place.line).nodeCount)

/-- The numbers of what stands for statements are those that `head` gives. -/
def Numbers (head : NodeId → NodeId) (pairs : List (Option Placed × Placed)) : Prop :=
  ∀ q q', (some q, q') ∈ pairs → q'.id = head q.id

theorem Arm.leadsTo_of_subset (hid : Numbers head pairs)
    {line first first' next next' depth : Nat} {a : Arm}
    (h : a.pairs line first first' next next' depth ⊆ pairs) :
    a.LeadsTo pairs head first first' := by
  rcases a with number | _ | ⟨s, rest⟩
  · exact ⟨_, h (List.mem_singleton_self _), rfl, rfl⟩
  · trivial
  · exact hid _ _ (h (List.mem_append_left _ (s.pair_mem_pairs ..)))

theorem Statement.spells_of_pair (hid : Numbers head pairs) {id id' next next' depth : Nat}
    (hnext : next' = head next) {s : Statement} (h : s.pairs id id' next next' depth ⊆ pairs)
    {q q' : Placed} (hpair : (some q, q') = s.pair id id' next next' depth) :
    q'.Spells pairs head q := by
  obtain ⟨rfl, rfl⟩ : q = ⟨s, id, depth, next⟩ ∧ q' = ⟨s.spelledOut, id', depth, next'⟩ := by
    simpa [Statement.pair] using hpair
  refine ⟨⟨s.command?_spelledOut, hid _ _ (h (s.pair_mem_pairs ..)), hnext⟩, rfl, rfl, ?_, ?_⟩
  · rintro place condition onTrue (_ | onFalse) rfl
    · exact Arm.leadsTo_of_subset hid (List.subset_of_cons_subset h)
    · exact Arm.leadsTo_of_subset hid (List.append_subset.1 (List.subset_of_cons_subset h)).1
  · rintro place condition onTrue onFalse rfl
    exact Arm.leadsTo_of_subset hid (List.append_subset.1 (List.subset_of_cons_subset h)).2

mutual

theorem Statement.spells_of_mem_pairs (hid : Numbers head pairs) (id id' next next' depth : Nat)
    (hnext : next' = head next) : ∀ s : Statement, s.pairs id id' next next' depth ⊆ pairs →
      ∀ {q q' : Placed}, (some q, q') ∈ s.pairs id id' next next' depth →
        q'.Spells pairs head q
  | .command place body => by
    intro h q q' hq
    exact Statement.spells_of_pair hid hnext h (List.mem_singleton.1 hq)
  | .conditional place condition onTrue none => by
    intro h q q' hq
    rcases List.mem_cons.1 hq with hq | hq
    · exact Statement.spells_of_pair hid hnext h hq
    · exact onTrue.spells_of_mem_pairs hid _ _ _ _ _ _ hnext (List.subset_of_cons_subset h) hq
  | .conditional place condition onTrue (some onFalse) => by
    intro h q q' hq
    have harms := List.append_subset.1 (List.subset_of_cons_subset h)
    rcases List.mem_cons.1 hq with hq | hq
    · exact Statement.spells_of_pair hid hnext h hq
    · rcases List.mem_append.1 hq with hq | hq
      · exact onTrue.spells_of_mem_pairs hid _ _ _ _ _ _ hnext harms.1 hq
      · exact onFalse.spells_of_mem_pairs hid _ _ _ _ _ _ hnext harms.2 hq

theorem Arm.spells_of_mem_pairs (hid : Numbers head pairs) (line id id' next next' depth : Nat)
    (hnext : next' = head next) :
    ∀ a : Arm, a.pairs line id id' next next' depth ⊆ pairs →
      ∀ {q q' : Placed}, (some q, q') ∈ a.pairs line id id' next next' depth →
        q'.Spells pairs head q
  | .line number => by
    intro _ q q' hq
    cases List.mem_singleton.1 hq
  | .block statements => spells_of_mem_pairsOfList hid id id' next next' depth hnext statements

/-- In a pair, the second statement stands for the first one. -/
theorem spells_of_mem_pairsOfList (hid : Numbers head pairs) (id id' next next' depth : Nat)
    (hnext : next' = head next) :
    ∀ statements : List Statement, pairsOfList id id' next next' depth statements ⊆ pairs →
      ∀ {q q' : Placed}, (some q, q') ∈ pairsOfList id id' next next' depth statements →
        q'.Spells pairs head q
  | [] => by
    intro _ q q' hq
    cases hq
  | s :: rest => by
    intro h q q' hq
    rw [pairsOfList] at h hq
    obtain ⟨hfirst, hrest⟩ := List.append_subset.1 h
    rcases List.mem_append.1 hq with hq | hq
    · refine s.spells_of_mem_pairs hid _ _ _ _ _ ?_ hfirst hq
      cases rest with
      | nil => exact hnext
      | cons t rest => exact hid _ _ (hrest (List.mem_append_left _ (t.pair_mem_pairs ..)))
    · exact spells_of_mem_pairsOfList hid _ _ _ _ _ hnext rest hrest hq

end

/-- The lines are entered at what stands for the statements there. -/
theorem lineEntries_spelledOut (hid : Numbers head pairs) (hexit : head Graph.exit = Graph.exit)
    (id id' next next' depth : Nat) (lines : List ProgramLine)
    (h : pairsOfList id id' next next' depth (lines.flatMap ProgramLine.statements) ⊆ pairs) :
    lineEntries id' (lines.map fun l => { l with statements := spelledOutList l.statements }) =
      (lineEntries id lines).map fun e => (e.1, head e.2) := by
  induction lines generalizing id id' with
  | nil => rfl
  | cons l rest ih =>
    rw [List.flatMap_cons, pairsOfList_append] at h
    obtain ⟨hfirst, hrest⟩ := List.append_subset.1 h
    rw [List.map_cons, lineEntries, lineEntries, ih _ _ hrest, List.map_cons,
      isEmpty_spelledOutList]
    congr 2
    cases hl : l.statements with
    | nil =>
      rcases lineEntries (id + nodeCountOfList []) rest with _ | first
      · exact hexit.symm
      · rfl
    | cons s statements =>
      rw [hl] at hfirst
      exact hid _ _ (hfirst (List.mem_append_left _ (s.pair_mem_pairs ..)))

end Places

/-! ## Programs -/

namespace Program

variable (p : Program)

/-- The statements of the program as spelled out, with those that they stand for. -/
def pairs : List (Option Placed × Placed) := pairsOfList 2 2 Graph.exit Graph.exit 0 p.statements

/-- The number of what stands for a statement in the program as spelled out. -/
def spelledId (id : NodeId) : NodeId := if id < 2 then id else 2 + pairIndex p.pairs (id - 2)

theorem spelledId_entry : p.spelledId Graph.entry = Graph.entry := rfl

theorem spelledId_exit : p.spelledId Graph.exit = Graph.exit := rfl

theorem spelledId_add (k : Nat) : p.spelledId (2 + k) = 2 + pairIndex p.pairs k := by
  rw [spelledId, if_neg (Nat.not_lt.2 (Nat.le_add_right 2 k)), Nat.add_sub_cancel_left]

theorem strictMono_spelledId : StrictMono p.spelledId := by
  intro id id' h
  rw [spelledId, spelledId]
  by_cases hid : id < 2
  · rw [if_pos hid]
    split
    · exact h
    · exact Nat.lt_of_lt_of_le hid (Nat.le_add_right _ _)
  · rw [if_neg hid, if_neg (fun hid' => hid (Nat.lt_trans h hid'))]
    exact Nat.add_lt_add_left (strictMono_pairIndex _ (by unfold NodeId at *; omega)) 2

theorem statements_spelledOut : p.spelledOut.statements = spelledOutList p.statements := by
  rw [statements, statements, spelledOut, List.flatMap_map]
  induction p.lines with
  | nil => rfl
  | cons l rest ih => rw [List.flatMap_cons, List.flatMap_cons, spelledOutList_append, ih]

theorem map_snd_pairs : p.pairs.map Prod.snd = p.spelledOut.placed := by
  rw [placed, statements_spelledOut]
  exact map_snd_pairsOfList 2 2 Graph.exit Graph.exit 0 p.statements

theorem filterMap_fst_pairs : p.pairs.filterMap Prod.fst = p.placed :=
  filterMap_fst_pairsOfList 2 2 Graph.exit Graph.exit 0 p.statements

theorem map_id_fst_pairs : (p.pairs.filterMap Prod.fst).map Placed.id =
    List.range' 2 (nodeCountOfList p.statements) := by
  rw [filterMap_fst_pairs, map_id_placed]

theorem map_id_snd_pairs : (p.pairs.map Prod.snd).map Placed.id =
    List.range' 2 (nodeCountOfList p.spelledOut.statements) := by
  rw [map_snd_pairs, map_id_placed]

theorem numbers_pairs : Numbers p.spelledId p.pairs := by
  intro q q' h
  obtain ⟨k, hk, hk'⟩ := exists_id_eq_of_mem_pairs p.map_id_fst_pairs p.map_id_snd_pairs h
  rw [hk, hk', spelledId_add]

variable {p} {q q' : Placed}

/-- A `GOTO` that is spelled out has a number of its own. -/
theorem spelledId_ne_of_jumpIn {n : NodeId} {line : Nat} (h : JumpIn p.pairs n line)
    (id : NodeId) : n ≠ p.spelledId id := by
  obtain ⟨q', hq', rfl, -⟩ := h
  have hmem : q' ∈ p.spelledOut.placed := p.map_snd_pairs ▸ List.mem_map_of_mem hq'
  have hpos := two_le_id hmem
  rw [spelledId]
  split
  · exact fun h => absurd hpos (Nat.not_le.2 (h ▸ ‹id < 2›))
  · exact id_ne_of_mem_pairs p.map_id_fst_pairs p.map_id_snd_pairs hq' _

theorem mem_placed_of_mem_pairs (h : (some q, q') ∈ p.pairs) :
    q ∈ p.placed ∧ q' ∈ p.spelledOut.placed :=
  ⟨p.filterMap_fst_pairs ▸ List.mem_filterMap.2 ⟨_, h, rfl⟩,
    p.map_snd_pairs ▸ List.mem_map_of_mem (f := Prod.snd) h⟩

theorem spells_of_mem_pairs (h : (some q, q') ∈ p.pairs) : q'.Spells p.pairs p.spelledId q :=
  spells_of_mem_pairsOfList p.numbers_pairs 2 2 Graph.exit Graph.exit 0 p.spelledId_exit.symm
    p.statements (fun _ => id) h

theorem exists_spells (hq : q ∈ p.placed) :
    ∃ q' ∈ p.spelledOut.placed, q'.Spells p.pairs p.spelledId q := by
  rw [← filterMap_fst_pairs, List.mem_filterMap] at hq
  obtain ⟨⟨_, q'⟩, h, rfl⟩ := hq
  exact ⟨q', (mem_placed_of_mem_pairs h).2, spells_of_mem_pairs h⟩

theorem exists_goto_of_mem_pairs (h : (none, q') ∈ p.pairs) :
    ∃ line, JumpIn p.pairs q'.id line ∧ q'.statement.command? = some (.goto line) ∧
      ∃ q ∈ p.placed, q'.statement.SpellsArmOf q.statement := by
  obtain ⟨q, hq, hspells⟩ := exists_spellsArmOf_of_list 2 2 Graph.exit Graph.exit 0 _ h
  have harm := hspells
  obtain ⟨line, -, hs⟩ := hspells
  have hc : q'.statement.command? = some (.goto line) := by rw [hs]; rfl
  exact ⟨line, ⟨q', h, rfl, hc⟩, hc, q, hq, harm⟩

/-- A statement as spelled out stands for one of the program, or it is the `GOTO` for an arm. -/
theorem spells_or_jumpIn (hq' : q' ∈ p.spelledOut.placed) :
    (∃ q ∈ p.placed, q'.Spells p.pairs p.spelledId q) ∨
      ∃ line, JumpIn p.pairs q'.id line ∧ q'.statement.command? = some (.goto line) ∧
        ∃ q ∈ p.placed, q'.statement.SpellsArmOf q.statement := by
  rw [← map_snd_pairs] at hq'
  obtain ⟨⟨_ | q, _⟩, h, rfl⟩ := List.mem_map.1 hq'
  · exact .inr (exists_goto_of_mem_pairs h)
  · exact .inl ⟨q, (mem_placed_of_mem_pairs h).1, spells_of_mem_pairs h⟩

variable (p)

/-- Other statements than `GOTO` stay as they are. -/
theorem renumbers_spelledOut :
    p.Renumbers p.spelledOut p.spelledId fun c => ∀ line, c ≠ some (.goto line) where
  exit := p.spelledId_exit
  exists_twin hq _ := by
    obtain ⟨q', hq', h⟩ := exists_spells hq
    exact ⟨q', hq', h.toTwin⟩
  exists_origin hq' hne := by
    rcases spells_or_jumpIn hq' with ⟨q, hq, h⟩ | ⟨line, -, hc, -⟩
    · exact ⟨q, hq, h.toTwin⟩
    · exact absurd hc (hne line)
  kept _ hne := hne

theorem entryOf_spelledOut (line : Nat) :
    p.spelledOut.edgeContext.entryOf line = p.spelledId (p.edgeContext.entryOf line) :=
  EdgeContext.entryOf_of_entries p.spelledId_exit line
    (lineEntries_spelledOut p.numbers_pairs p.spelledId_exit 2 2 Graph.exit Graph.exit 0 p.lines
      fun _ => id)

/-- The loops are matched alike, as a `GOTO` has no part in them. -/
theorem matchedLoops_spelledOut :
    p.spelledOut.matchedLoops = p.matchedLoops.renumbered p.spelledId := by
  let step (m : LoopMatching) (q : Placed) := m.step q.id q.statement
  have hfold : p.spelledOut.placed.foldl step .empty =
      (p.placed.foldl step .empty).renumbered p.spelledId := by
    rw [← map_snd_pairs, ← filterMap_fst_pairs]
    refine foldl_pairs (R := fun m m' : LoopMatching => m' = m.renumbered p.spelledId) ?_ ?_ rfl
    · rintro q q' hr m _ rfl
      have hspells := spells_of_mem_pairs hr
      show (m.renumbered _).step q'.id q'.statement = _
      rw [hspells.id_eq, m.renumbered_step q.id hspells.command]
    · rintro q' hr m _ rfl
      obtain ⟨line, -, hc, -⟩ := exists_goto_of_mem_pairs hr
      show (m.renumbered _).step q'.id q'.statement = _
      rw [LoopMatching.step, hc]
  rw [matchedLoops, matchedLoops, LoopMatching.ofStatements, LoopMatching.ofStatements,
    List.foldl_map, List.foldl_map]
  dsimp only
  rw [hfold]
  exact (LoopMatching.renumbered_withUnclosed _).symm

end Program

/-! ## The symbol table -/

namespace SymbolSweep

variable (s : SymbolSweep)

theorem directive_spelledOut (statement : Statement) :
    s.directive statement.spelledOut = s.directive statement := by
  rcases statement with ⟨place, body⟩ | ⟨_, _, _, _ | _⟩
  · cases body <;> rfl
  · rfl
  · rfl

theorem statement_spelledOut (statement : Statement) (depth : Nat) :
    s.statement (statement.spelledOut, depth) = s.statement (statement, depth) := by
  rcases statement with _ | ⟨_, _, _, _ | _⟩ <;> rfl

/-- A `GOTO` declares nothing. -/
theorem of_spellsArmOf {statement owner : Statement} (h : statement.SpellsArmOf owner)
    (depth : Nat) : s.directive statement = s ∧ s.statement (statement, depth) = s := by
  obtain ⟨number, -, rfl⟩ := h
  exact ⟨rfl, rfl⟩

end SymbolSweep

/-- A `GOTO` and the columns have no part in the declarations of a program. -/
theorem SymbolTable.build_spelledOut (p : Program) :
    SymbolTable.build p.spelledOut = SymbolTable.build p := by
  have occurrences (p : Program) : p.occurrences = p.placed.map fun q => (q.statement, q.depth) :=
    occurrencesOfList_eq 2 Graph.exit 0 p.statements
  let directive (s : SymbolSweep) (q : Placed) := s.directive q.statement
  let statement (s : SymbolSweep) (q : Placed) := s.statement (q.statement, q.depth)
  have hdirective (s : SymbolSweep) :
      p.spelledOut.placed.foldl directive s = p.placed.foldl directive s := by
    rw [← Program.map_snd_pairs, ← Program.filterMap_fst_pairs]
    refine (foldl_pairs (R := Eq) ?_ ?_ rfl).symm
    · rintro q q' hr s _ rfl
      show s.directive q.statement = s.directive q'.statement
      rw [(Program.spells_of_mem_pairs hr).statement, s.directive_spelledOut]
    · rintro q' hr s _ rfl
      obtain ⟨_, -, -, q, -, h⟩ := Program.exists_goto_of_mem_pairs hr
      exact (s.of_spellsArmOf h q'.depth).1.symm
  have hstatement (s : SymbolSweep) :
      p.spelledOut.placed.foldl statement s = p.placed.foldl statement s := by
    rw [← Program.map_snd_pairs, ← Program.filterMap_fst_pairs]
    refine (foldl_pairs (R := Eq) ?_ ?_ rfl).symm
    · rintro q q' hr s _ rfl
      have h := Program.spells_of_mem_pairs hr
      show s.statement (q.statement, q.depth) = s.statement (q'.statement, q'.depth)
      rw [h.statement, h.depth_eq, s.statement_spelledOut]
    · rintro q' hr s _ rfl
      obtain ⟨_, -, -, q, -, h⟩ := Program.exists_goto_of_mem_pairs hr
      exact (s.of_spellsArmOf h q'.depth).2.symm
  rw [SymbolTable.build, SymbolTable.build, Program.allStatements, Program.allStatements,
    occurrences, occurrences, List.map_map, List.map_map, List.foldl_map, List.foldl_map,
    List.foldl_map, List.foldl_map]
  have hdirected := hdirective .empty
  have hswept := hstatement (p.placed.foldl directive .empty)
  dsimp only [directive, statement] at hdirected hswept
  dsimp only [Function.comp_apply]
  rw [hdirected, hswept]

end LineBasic
