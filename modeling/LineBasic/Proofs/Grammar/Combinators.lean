import Mathlib.Data.List.TakeWhile
import LineBasic.Grammar.Parser

/-!
# What combinators accept

What a composed parser makes of an input, given what its parts make of it. A repeated step is
followed one round at a time (`Parser.repeated_cons`, `Parser.repeated_last`), so nothing has to be
said of the bound on the rounds.
-/

namespace LineBasic.Parser

variable {α β : Type} {p q : Parser α} {s t rest : List Char} {a : α}

/-! ## Sequences -/

theorem bind_of_accepted {f : α → Parser β} (h : p s = .accepted a t) : (p >>= f) s = f a t := by
  change Parser.bind p f s = f a t
  rw [Parser.bind, h]

theorem exists_of_bind {f : α → Parser β} {b : β} (h : (p >>= f) s = .accepted b rest) :
    ∃ a t, p s = .accepted a t ∧ f a t = .accepted b rest := by
  change Parser.bind p f s = _ at h
  rw [Parser.bind] at h
  split at h
  next a t ha => exact ⟨a, t, ha, h⟩
  next => cases h
  next => cases h

theorem bind_of_refused {f : α → Parser β} (h : p s = .refused t) : (p >>= f) s = .refused t := by
  change Parser.bind p f s = _
  rw [Parser.bind, h]

theorem map_of_accepted {f : α → β} (h : p s = .accepted a t) : (f <$> p) s = .accepted (f a) t :=
  bind_of_accepted h

theorem map_of_refused {f : α → β} (h : p s = .refused t) : (f <$> p) s = .refused t :=
  bind_of_refused h

/-! ## Alternatives -/

theorem orElse_of_accepted (h : p s = .accepted a t) : p.orElse q s = .accepted a t := by
  rw [orElse, h]

theorem orElse_of_refused (h : p s = .refused t) : p.orElse q s = q s := by
  rw [orElse, h]

theorem optional_of_accepted (h : p s = .accepted a t) : optional p s = .accepted (some a) t := by
  rw [optional, h]

theorem optional_of_refused (h : p s = .refused t) : optional p s = .accepted none s := by
  rw [optional, h]

/-- An alternative accepts what one of the two accepts. -/
theorem of_orElse (h : p.orElse q s = .accepted a rest) :
    p s = .accepted a rest ∨ q s = .accepted a rest := by
  rw [orElse] at h
  split at h
  · exact .inr h
  · exact .inl h

/-- What stands behind an optional part. -/
theorem of_optional {found : Option α} (h : optional p s = .accepted found t) :
    (∃ a, found = some a ∧ p s = .accepted a t) ∨
      found = none ∧ t = s ∧ ∃ place, p s = .refused place := by
  rw [optional] at h
  split at h <;> cases h
  next a ha => exact .inl ⟨a, rfl, ha⟩
  next place hplace => exact .inr ⟨rfl, rfl, place, hplace⟩

theorem accepts_of_accepted (h : p s = .accepted a t) : accepts p s = true := by
  rw [accepts, h]

theorem exists_of_accepts (h : accepts p s = true) : ∃ a t, p s = .accepted a t := by
  rw [accepts] at h
  split at h
  next a t ha => exact ⟨a, t, ha⟩
  next => cases h

theorem accepts_of_refused (h : p s = .refused t) : accepts p s = false := by
  rw [accepts, h]

/-- The parser accepts the input as something that satisfies the test. -/
def acceptsSuch (p : Parser α) (test : α → Bool) (s : List Char) : Bool :=
  match p s with
  | .accepted a _ => test a
  | _ => false

theorem exists_of_acceptsSuch {test : α → Bool} (h : acceptsSuch p test s = true) :
    ∃ a t, p s = .accepted a t ∧ test a = true := by
  rw [acceptsSuch] at h
  split at h
  next a t ha => exact ⟨a, t, ha, h⟩
  next => cases h

theorem acceptsSuch_of_accepted {test : α → Bool} (h : p s = .accepted a t) :
    acceptsSuch p test s = test a := by
  rw [acceptsSuch, h]

/-- What the parser leaves of an input that it accepts. -/
def restOf? (p : Parser α) (s : List Char) : Option (List Char) :=
  match p s with
  | .accepted _ rest => some rest
  | _ => none

theorem exists_of_restOf? (h : restOf? p s = some rest) : ∃ a, p s = .accepted a rest := by
  rw [restOf?] at h
  split at h
  next a t ha => exact ⟨a, Option.some.inj h ▸ ha⟩
  next => cases h

theorem attempt_of_accepted (h : p s = .accepted a t) : attempt p s = .accepted (some a) t := by
  rw [attempt, h]

theorem attempt_of_not_accepts (h : accepts p s = false) : attempt p s = .accepted none s := by
  rw [attempt]
  split
  next ha =>
    rw [accepts_of_accepted ha] at h
    cases h
  next => rfl

theorem wholly_of_accepted (h : p s = .accepted a t) : wholly p s = .accepted a t := by
  rw [wholly, h]

theorem wholly_of_refused (h : p s = .refused t) : wholly p s = .refused s := by
  rw [wholly, h]

theorem of_wholly (h : wholly p s = .accepted a t) : p s = .accepted a t := by
  rw [wholly] at h
  split at h
  · cases h
  · exact h

/-- A parser that does not accept is passed over, unless it aborts. -/
theorem firstOf_cons_of_refused {parsers : List (Parser α)} (hne : parsers ≠ [])
    (h : p s = .refused t) : firstOf (p :: parsers) s = firstOf parsers s := by
  cases parsers with
  | nil => exact absurd rfl hne
  | cons q more => exact orElse_of_refused h

theorem firstOf_cons_of_accepted {parsers : List (Parser α)} (h : p s = .accepted a t) :
    firstOf (p :: parsers) s = .accepted a t := by
  cases parsers with
  | nil => exact h
  | cons q more => exact orElse_of_accepted h

/-! ## Characters -/

section Characters

variable {class? : Char → Bool} {front : List Char}

/-- The longest front part is the one that is followed by something else. -/
theorem takeWhile_append (hfront : ∀ c ∈ front, class? c) (hrest : ∀ c ∈ rest.head?, ¬ class? c) :
    takeWhile class? (front ++ rest) = .accepted front rest := by
  have hnone : rest.takeWhile class? = [] := by
    cases rest with
    | nil => rfl
    | cons c rest => exact List.takeWhile_cons_of_neg (hrest c rfl)
  have hall : rest.dropWhile class? = rest := by
    cases rest with
    | nil => rfl
    | cons c rest => exact List.dropWhile_cons_of_neg (hrest c rfl)
  rw [takeWhile, List.takeWhile_append_of_pos hfront, List.dropWhile_append_of_pos hfront, hnone,
    hall, List.append_nil]

theorem takeWhile1_append (hne : front ≠ []) (hfront : ∀ c ∈ front, class? c)
    (hrest : ∀ c ∈ rest.head?, ¬ class? c) :
    takeWhile1 class? (front ++ rest) = .accepted front rest := by
  obtain ⟨htake, hdrop⟩ := Outcome.accepted.inj (takeWhile_append hfront hrest)
  rw [takeWhile1, htake, hdrop]
  cases front with
  | nil => exact absurd rfl hne
  | cons => rfl

theorem takeWhile1_of_head (h : ∀ c ∈ s.head?, ¬ class? c) : takeWhile1 class? s = .refused s := by
  rw [takeWhile1]
  cases s with
  | nil => rfl
  | cons c s => rw [List.takeWhile_cons_of_neg (h c rfl)]

theorem of_takeWhile (h : takeWhile class? s = .accepted front rest) :
    s = front ++ rest ∧ (∀ c ∈ front, class? c) ∧ ∀ c ∈ rest.head?, ¬ class? c := by
  obtain ⟨rfl, rfl⟩ := Outcome.accepted.inj h
  refine ⟨List.takeWhile_append_dropWhile.symm, fun c => List.mem_takeWhile_imp, fun c hc => ?_⟩
  have hfirst := List.head?_dropWhile_not class? s
  rw [Option.mem_def.1 hc] at hfirst
  simpa using hfirst

theorem of_takeWhile1 (h : takeWhile1 class? s = .accepted front rest) :
    s = front ++ rest ∧ front ≠ [] ∧ (∀ c ∈ front, class? c) ∧ ∀ c ∈ rest.head?, ¬ class? c := by
  rw [takeWhile1] at h
  split at h
  next => cases h
  next hne =>
    obtain ⟨rfl, rfl⟩ := Outcome.accepted.inj h
    have htake : takeWhile class? s = .accepted (s.takeWhile class?) (s.dropWhile class?) := rfl
    obtain ⟨hs, hall, hrest⟩ := of_takeWhile htake
    exact ⟨hs, hne, hall, hrest⟩

theorem satisfy_cons {c : Char} (h : class? c) : satisfy class? (c :: rest) = .accepted c rest := by
  rw [satisfy, if_pos h]

theorem satisfy_of_head (h : ∀ c ∈ s.head?, ¬ class? c) : satisfy class? s = .refused s := by
  cases s with
  | nil => rfl
  | cons c s => rw [satisfy, if_neg (h c rfl)]

theorem of_satisfy {c : Char} (h : satisfy class? s = .accepted c rest) :
    s = c :: rest ∧ class? c := by
  cases s with
  | nil => cases h
  | cons d s =>
    rw [satisfy] at h
    split at h
    next hd =>
      obtain ⟨rfl, rfl⟩ := Outcome.accepted.inj h
      exact ⟨rfl, hd⟩
    next => cases h

end Characters

/-! ## Repetitions -/

section Repetitions

variable {step : Parser (List α × Bool)} {items more : List α}

theorem gather_succ (n : Nat) (s : List Char) :
    gather step (n + 1) s = match step s with
      | .accepted (items, goesOn) t =>
        if goesOn then ((items ++ ·) <$> gather step n) t else .accepted items t
      | .refused place => .refused place
      | .aborted place => .aborted place := by
  rw [gather]
  change Parser.bind step _ s = _
  rw [Parser.bind]
  cases step s with
  | accepted r t =>
    obtain ⟨items, goesOn⟩ := r
    cases goesOn <;> rfl
  | refused => rfl
  | aborted => rfl

/-- More rounds than are needed make no difference. -/
theorem gather_mono {n m : Nat} (hle : n ≤ m) (h : gather step n s = .accepted items rest) :
    gather step m s = .accepted items rest := by
  induction n generalizing m s items with
  | zero => cases h
  | succ n ih =>
    obtain ⟨m, rfl⟩ := Nat.exists_eq_add_of_le' (Nat.le_trans (Nat.succ_pos n) hle)
    rw [gather_succ] at h ⊢
    cases hstep : step s with
    | accepted r t =>
      obtain ⟨found, goesOn⟩ := r
      rw [hstep] at h
      cases goesOn with
      | false => exact h
      | true =>
        obtain ⟨others, t', hothers, hitems⟩ := exists_of_bind h
        obtain ⟨rfl, rfl⟩ := Outcome.accepted.inj hitems
        exact map_of_accepted (ih (Nat.le_of_succ_le_succ hle) hothers)
    | refused => rw [hstep] at h; cases h
    | aborted => rw [hstep] at h; cases h

/-- A round that goes on, and the rest of the repetition. -/
theorem repeated_cons (hstep : step s = .accepted (items, true) t) (hlt : t.length < s.length)
    (h : repeated step t = .accepted more rest) :
    repeated step s = .accepted (items ++ more) rest := by
  rw [repeated, gather_succ, hstep]
  exact map_of_accepted (gather_mono hlt h)

/-- The last round. -/
theorem repeated_last (hstep : step s = .accepted (items, false) t) :
    repeated step s = .accepted items t := by
  rw [repeated, gather_succ, hstep]
  rfl

end Repetitions

/-! ## Lists with separators -/

/-- A separator and the element after it. -/
def furtherStep (separator : Parser β) (element : Parser α) : Parser (List α × Bool) := do
  match ← optional (separator >>= fun _ => element) with
  | some a => return ([a], true)
  | none => return ([], false)

section Separated

variable {separator : Parser β} {element : Parser α} {b : β} {more : List α} {u : List Char}

theorem separated1_of_accepted (hfirst : element s = .accepted a t)
    (hmore : repeated (furtherStep separator element) t = .accepted more rest) :
    separated1 separator element s = .accepted (a :: more) rest :=
  (bind_of_accepted hfirst).trans ((bind_of_accepted hmore).trans rfl)

theorem repeated_furtherStep_cons (hseparator : separator s = .accepted b u)
    (helement : element u = .accepted a t) (hlt : t.length < s.length)
    (hmore : repeated (furtherStep separator element) t = .accepted more rest) :
    repeated (furtherStep separator element) s = .accepted (a :: more) rest := by
  have hboth : (separator >>= fun _ => element) s = .accepted a t :=
    (bind_of_accepted hseparator).trans helement
  have hstep : furtherStep separator element s = .accepted ([a], true) t :=
    bind_of_accepted (optional_of_accepted hboth)
  exact repeated_cons hstep hlt hmore

theorem repeated_furtherStep_nil (h : separator s = .refused t) :
    repeated (furtherStep separator element) s = .accepted [] s :=
  repeated_last (bind_of_accepted (optional_of_refused (bind_of_refused h)))

end Separated

end LineBasic.Parser
