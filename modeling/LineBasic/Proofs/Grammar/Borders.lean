import LineBasic.Proofs.Grammar.StatementPlaces

/-!
# Reading up to a border

A text goes on behind a border in one of two ways. What is read of the text before the border does
not depend on the way, as long as no parser looks too far ahead. The strongest form is
`Parser.Steady`: the parser does the same in front of both borders and stops before them. A name or
a number may go on across the border in one of the texts, so for these only what is accepted up to a
place before the border is carried over (`Parser.Carries`), and what is refused (`Parser.Refuses`).
Every combinator keeps the three, and a repetition keeps them round by round. Where the next part
decides how far the one before it goes, `Parser.Carries` takes a condition on the place between.
-/

namespace LineBasic.Parser

variable {α β : Type} {x y s t rest : List Char} {n : Nat} {Q R : List Char → Prop}
  {p q : Parser α} {a : α}

/-- What the parser accepts in front of the border `x` it accepts in front of the border `y`, up to
the same place, if the place satisfies `Q`. Only texts of less than `n` characters before the border
count. -/
def Carries (x y : List Char) (n : Nat) (Q : List Char → Prop) (p : Parser α) : Prop :=
  ∀ ⦃v v' : List Char⦄ ⦃a : α⦄, v.length < n → Q (v' ++ x) → p (v ++ x) = .accepted a (v' ++ x) →
    p (v ++ y) = .accepted a (v' ++ y)

/-- What the parser refuses in front of `x` it refuses in front of `y`. -/
def Refuses (x y : List Char) (p : Parser α) : Prop :=
  ∀ ⦃v place : List Char⦄, p (v ++ x) = .refused place → ∃ place', p (v ++ y) = .refused place'

/-- The parser never reads across the border, and does the same in front of `x` and of `y`. -/
def Steady (x y : List Char) (p : Parser α) : Prop :=
  ∀ v, (∃ a v', v' <:+ v ∧ p (v ++ x) = .accepted a (v' ++ x) ∧
      p (v ++ y) = .accepted a (v' ++ y)) ∨
    ∃ place place', p (v ++ x) = .refused place ∧ p (v ++ y) = .refused place'

theorem bind_of_aborted {f : α → Parser β} (h : p s = .aborted t) :
    (p >>= f) s = .aborted t := by
  change Parser.bind p f s = _
  rw [Parser.bind, h]

theorem wholly_of_aborted (h : p s = .aborted t) : wholly p s = .aborted t := by
  rw [wholly, h]

theorem firstOf_cons_of_aborted {parsers : List (Parser α)} (h : p s = .aborted t) :
    firstOf (p :: parsers) s = .aborted t := by
  cases parsers with
  | nil => exact h
  | cons q more =>
    rw [firstOf, orElse, h]
    exact nofun

/-! ## Texts before the border -/

/-- A place between two places before the border. -/
theorem exists_before [p.Advances] {v v' : List Char} (h : p (v ++ x) = .accepted a t)
    (hsuffix : v' ++ x <:+ t) : ∃ u, t = u ++ x ∧ u <:+ v := by
  obtain ⟨w, rfl⟩ := (List.suffix_append v' x).trans hsuffix
  exact ⟨w, rfl, List.suffix_append_self_iff.1 (Advances.suffix_of_accepted h)⟩

/-! ## Parsers that do not read across the border -/

namespace Steady

theorem refuses (h : Steady x y p) : Refuses x y p := by
  intro v place hp
  rcases h v with ⟨a, v', -, ha, -⟩ | ⟨-, place', -, hplace⟩
  · rw [hp] at ha
    cases ha
  · exact ⟨place', hplace⟩

theorem carries (h : Steady x y p) : Carries x y n Q p := by
  intro v v' a _ _ hp
  rcases h v with ⟨b, u, -, hb, hb'⟩ | ⟨_, _, hrefused, -⟩
  · obtain ⟨rfl, hu⟩ := Outcome.accepted.inj (hp.symm.trans hb)
    rwa [List.append_cancel_right hu]
  · rw [hp] at hrefused
    cases hrefused

/-- Where it stops is before the border. -/
theorem exists_suffix (h : Steady x y p) {v : List Char} (hp : p (v ++ x) = .accepted a t) :
    ∃ v', t = v' ++ x ∧ v' <:+ v ∧ p (v ++ y) = .accepted a (v' ++ y) := by
  rcases h v with ⟨b, u, hu, hb, hb'⟩ | ⟨_, _, hrefused, -⟩
  · obtain ⟨rfl, rfl⟩ := Outcome.accepted.inj (hp.symm.trans hb)
    exact ⟨u, rfl, hu, hb'⟩
  · rw [hp] at hrefused
    cases hrefused

theorem accepts_eq (h : Steady x y p) (v : List Char) :
    accepts p (v ++ x) = accepts p (v ++ y) := by
  rcases h v with ⟨a, v', -, hx, hy⟩ | ⟨_, _, hx, hy⟩
  · rw [accepts_of_accepted hx, accepts_of_accepted hy]
  · rw [accepts_of_refused hx, accepts_of_refused hy]

theorem pure (a : α) : Steady x y (Pure.pure a : Parser α) :=
  fun v => .inl ⟨a, v, List.suffix_refl v, rfl, rfl⟩

theorem refuse : Steady x y (refuse : Parser α) := fun _ => .inr ⟨_, _, rfl, rfl⟩

theorem bind (h : Steady x y p) {f : α → Parser β} (hf : ∀ a, Steady x y (f a)) :
    Steady x y (p >>= f) := by
  intro v
  rcases h v with ⟨a, v', hv', hx, hy⟩ | ⟨place, place', hx, hy⟩
  · rw [bind_of_accepted hx, bind_of_accepted hy]
    rcases hf a v' with ⟨b, u, hu, hbx, hby⟩ | hrefused
    · exact .inl ⟨b, u, hu.trans hv', hbx, hby⟩
    · exact .inr hrefused
  · exact .inr ⟨place, place', bind_of_refused hx, bind_of_refused hy⟩

theorem map (h : Steady x y p) (f : α → β) : Steady x y (f <$> p) :=
  h.bind fun a => pure (f a)

theorem orElse (hp : Steady x y p) (hq : Steady x y q) : Steady x y (p.orElse q) := by
  intro v
  rcases hp v with ⟨a, v', hv', hx, hy⟩ | ⟨_, _, hx, hy⟩
  · exact .inl ⟨a, v', hv', orElse_of_accepted hx, orElse_of_accepted hy⟩
  · rw [orElse_of_refused hx, orElse_of_refused hy]
    exact hq v

theorem firstOf {parsers : List (Parser α)} (h : ∀ p ∈ parsers, Steady x y p) :
    Steady x y (firstOf parsers) := by
  induction parsers with
  | nil => exact fun v => .inr ⟨_, _, rfl, rfl⟩
  | cons p more ih =>
    obtain ⟨hp, hmore⟩ := List.forall_mem_cons.1 h
    cases more with
    | nil => exact hp
    | cons q more => exact hp.orElse (ih hmore)

theorem wholly (h : Steady x y p) : Steady x y (wholly p) := by
  intro v
  rcases h v with ⟨a, v', hv', hx, hy⟩ | ⟨_, _, hx, hy⟩
  · exact .inl ⟨a, v', hv', wholly_of_accepted hx, wholly_of_accepted hy⟩
  · exact .inr ⟨_, _, wholly_of_refused hx, wholly_of_refused hy⟩

theorem optional (h : Steady x y p) : Steady x y (optional p) := by
  intro v
  rcases h v with ⟨a, v', hv', hx, hy⟩ | ⟨_, _, hx, hy⟩
  · exact .inl ⟨_, v', hv', optional_of_accepted hx, optional_of_accepted hy⟩
  · exact .inl ⟨_, v, List.suffix_refl v, optional_of_refused hx, optional_of_refused hy⟩

theorem attempt (h : Steady x y p) : Steady x y (attempt p) := by
  intro v
  rcases h v with ⟨a, v', hv', hx, hy⟩ | ⟨_, _, hx, hy⟩
  · exact .inl ⟨_, v', hv', attempt_of_accepted hx, attempt_of_accepted hy⟩
  · exact .inl ⟨_, v, List.suffix_refl v, attempt_of_not_accepts (accepts_of_refused hx),
      attempt_of_not_accepts (accepts_of_refused hy)⟩

end Steady

/-! ## What is carried over -/

namespace Carries

theorem mono (h : Carries x y n Q p) (hRQ : ∀ r, R r → Q r) : Carries x y n R p :=
  fun _ _ _ hn hr hp => h hn (hRQ _ hr) hp

/-- For shorter texts before the border. -/
theorem of_succ (h : Carries x y (n + 1) Q p) : Carries x y n Q p :=
  fun _ _ _ hn => h (Nat.lt_succ_of_lt hn)

theorem pure (a : α) : Carries x y n Q (Pure.pure a : Parser α) := (Steady.pure a).carries

/-- What is read behind the first part shows that the place between them satisfies `R`. -/
theorem bind [p.Advances] {f : α → Parser β} [hadvances : ∀ a, (f a).Advances]
    (hp : Carries x y n R p) (hf : ∀ a, Carries x y n Q (f a))
    (hbetween : ∀ a t b rest, f a t = .accepted b rest → Q rest → R t) :
    Carries x y n Q (p >>= f) := by
  intro v v' b hn hQ h
  obtain ⟨a, t, hfirst, hthen⟩ := exists_of_bind h
  obtain ⟨u, rfl, hu⟩ := exists_before hfirst (Advances.suffix_of_accepted hthen)
  have hlt : u.length < n := Nat.lt_of_le_of_lt hu.length_le hn
  rw [bind_of_accepted (hp hn (hbetween a _ b _ hthen hQ) hfirst)]
  exact hf a hlt hQ hthen

/-- The place between the parts does not matter. -/
theorem seq [p.Advances] {f : α → Parser β} [∀ a, (f a).Advances]
    (hp : Carries x y n (fun _ => True) p) (hf : ∀ a, Carries x y n Q (f a)) :
    Carries x y n Q (p >>= f) := hp.bind hf fun _ _ _ _ _ _ => trivial

theorem map (hp : Carries x y n Q p) (f : α → β) : Carries x y n Q (f <$> p) := by
  intro v v' b hn hQ h
  obtain ⟨a, t, ha, heq⟩ := exists_of_bind h
  obtain ⟨rfl, rfl⟩ := Outcome.accepted.inj heq
  exact map_of_accepted (hp hn hQ ha)

theorem wholly (hp : Carries x y n Q p) : Carries x y n Q (wholly p) :=
  fun _ _ _ hn hQ h => wholly_of_accepted (hp hn hQ (of_wholly h))

theorem committed (hp : Carries x y n Q p) : Carries x y n Q (committed p) := by
  intro v v' a hn hQ h
  rw [Parser.committed] at h ⊢
  split at h
  · cases h
  · rw [hp hn hQ h]

theorem orElse (hp : Carries x y n Q p) (hq : Carries x y n Q q)
    (hrefused : ∀ v place, p (v ++ x) = .refused place → accepts q (v ++ x) = true →
      ∃ place', p (v ++ y) = .refused place') : Carries x y n Q (p.orElse q) := by
  intro v v' a hn hQ h
  rw [Parser.orElse] at h
  split at h
  next place hplace =>
    obtain ⟨place', hplace'⟩ := hrefused v place hplace (accepts_of_accepted h)
    rw [orElse_of_refused hplace']
    exact hq hn hQ h
  next => exact orElse_of_accepted (hp hn hQ h)

theorem optional (hp : Carries x y n Q p)
    (hrefused : ∀ v place, Q (v ++ x) → p (v ++ x) = .refused place →
      ∃ place', p (v ++ y) = .refused place') : Carries x y n Q (optional p) := by
  intro v v' found hn hQ h
  rcases of_optional h with ⟨a, rfl, ha⟩ | ⟨rfl, hv, place, hplace⟩
  · exact optional_of_accepted (hp hn hQ ha)
  · rw [hv] at hQ
    obtain rfl := List.append_cancel_right hv
    obtain ⟨place', hplace'⟩ := hrefused v' place hQ hplace
    exact optional_of_refused hplace'

end Carries

/-- Behind something that never reads across the border. -/
theorem Steady.before (hp : Steady x y p) {f : α → Parser β}
    (hf : ∀ a, Carries x y n Q (f a)) : Carries x y n Q (p >>= f) := by
  intro v v' b hn hQ h
  obtain ⟨a, t, hfirst, hthen⟩ := exists_of_bind h
  obtain ⟨u, rfl, hu, hfirst'⟩ := hp.exists_suffix hfirst
  rw [bind_of_accepted hfirst']
  exact hf a (Nat.lt_of_le_of_lt hu.length_le hn) hQ hthen

/-- What stands behind something consumed has one character less. -/
theorem Steady.behind [p.Consumes] (hp : Steady x y p) {f : α → Parser β}
    (hf : ∀ a, Carries x y n Q (f a)) : Carries x y (n + 1) Q (p >>= f) := by
  intro v v' b hn hQ h
  obtain ⟨a, t, hfirst, hthen⟩ := exists_of_bind h
  obtain ⟨u, rfl, hu, hfirst'⟩ := hp.exists_suffix hfirst
  have hlt := Consumes.shorter hfirst
  rw [List.length_append, List.length_append] at hlt
  rw [bind_of_accepted hfirst']
  exact hf a (by omega) hQ hthen

theorem Steady.refusesBefore (hp : Steady x y p) {f : α → Parser β} (hf : ∀ a, Refuses x y (f a)) :
    Refuses x y (p >>= f) := by
  intro v place h
  rcases hp v with ⟨a, v', -, hx, hy⟩ | ⟨place₁, place₂, hx, hy⟩
  · rw [bind_of_accepted hx] at h
    rw [bind_of_accepted hy]
    exact hf a h
  · exact ⟨place₂, bind_of_refused hy⟩

/-- The parser accepts, or it aborts. -/
def NeverRefuses (p : Parser α) : Prop := ∀ s place, p s ≠ .refused place

namespace NeverRefuses

theorem pure (a : α) : (Pure.pure a : Parser α).NeverRefuses := nofun

theorem remaining : remaining.NeverRefuses := nofun

theorem takeWhile (class? : Char → Bool) : (takeWhile class?).NeverRefuses := nofun

theorem optional (p : Parser α) : (optional p).NeverRefuses := by
  intro s place h
  rw [Parser.optional] at h
  split at h <;> cases h

theorem committed (p : Parser α) : (committed p).NeverRefuses := by
  intro s place h
  rw [Parser.committed] at h
  split at h
  · cases h
  next hnot => exact hnot place h

theorem bind (h : p.NeverRefuses) {f : α → Parser β} (hf : ∀ a, (f a).NeverRefuses) :
    (p >>= f).NeverRefuses := by
  intro s place hs
  change Parser.bind p f s = _ at hs
  rw [Parser.bind] at hs
  split at hs
  next a rest _ => exact hf a rest place hs
  next hrefused => exact h s _ hrefused
  next => cases hs

end NeverRefuses

theorem NeverRefuses.repeated {step : Parser (List α × Bool)} (h : step.NeverRefuses)
    (hstep : Progresses step) (hadvances : step.Advances) : (repeated step).NeverRefuses := by
  intro s place hs
  induction hlength : s.length using Nat.strongRecOn generalizing s with
  | _ k ih =>
    rw [(hstep.eq_repeated_iff hadvances _).2 rfl] at hs
    change Parser.bind step _ s = _ at hs
    rw [Parser.bind] at hs
    split at hs
    next r t hround =>
      obtain ⟨items, goesOn⟩ := r
      cases goesOn with
      | false => cases hs
      | true =>
        have hmore : Parser.repeated step t = .refused place := by
          change Parser.bind (Parser.repeated step) _ t = _ at hs
          rw [Parser.bind] at hs
          split at hs
          next => cases hs
          next hrefused => rwa [← Outcome.refused.inj hs]
          next => cases hs
        exact ih t.length (hlength ▸ hstep hround) t hmore rfl
    next hrefused => exact h s _ hrefused
    next => cases hs

/-- Only the first part decides whether the parser refuses. -/
theorem refused_of_bind {f : α → Parser β} {place : List Char} (hf : ∀ a, (f a).NeverRefuses)
    (h : (p >>= f) s = .refused place) : p s = .refused place := by
  change Parser.bind p f s = _ at h
  rw [Parser.bind] at h
  split at h
  next a rest _ => exact absurd h (hf a rest place)
  next hrefused => rwa [← Outcome.refused.inj h]
  next => cases h

theorem Refuses.bind (h : Refuses x y p) {f : α → Parser β} (hf : ∀ a, (f a).NeverRefuses) :
    Refuses x y (p >>= f) := by
  intro v place hv
  obtain ⟨place', hplace'⟩ := h (refused_of_bind hf hv)
  exact ⟨place', bind_of_refused hplace'⟩

/-- An optional part that begins with a mark: where the mark stands, the part does. -/
theorem Carries.optional_of_mark {f : α → Parser β} (hp : Steady x y p)
    (hf : Carries x y n Q (p >>= f))
    (hmark : ∀ r, Q r → accepts p r = true → accepts (p >>= f) r = true) :
    Carries x y n Q (Parser.optional (p >>= f)) := by
  refine hf.optional fun v place hQ hplace => ?_
  rcases hp v with ⟨a, v', -, hx, -⟩ | ⟨_, place', -, hy⟩
  · have haccepts := hmark _ hQ (accepts_of_accepted hx)
    rw [accepts_of_refused hplace] at haccepts
    cases haccepts
  · exact ⟨place', bind_of_refused hy⟩

/-! ## Repetitions -/

section Repetitions

variable {step : Parser (List α × Bool)} {items : List α}

/-- The first round of a repetition. -/
theorem exists_of_repeated (hstep : Progresses step) (hadvances : step.Advances)
    (h : repeated step s = .accepted items rest) :
    step s = .accepted (items, false) rest ∨
      ∃ found more t, step s = .accepted (found, true) t ∧ repeated step t = .accepted more rest ∧
        items = found ++ more := by
  rw [(hstep.eq_repeated_iff hadvances _).2 rfl] at h
  obtain ⟨⟨found, goesOn⟩, t, hfirst, hthen⟩ := exists_of_bind h
  cases goesOn with
  | false =>
    obtain ⟨rfl, rfl⟩ := Outcome.accepted.inj hthen
    exact .inl hfirst
  | true =>
    obtain ⟨more, t', hmore, heq⟩ := exists_of_bind hthen
    obtain ⟨rfl, rfl⟩ := Outcome.accepted.inj heq
    exact .inr ⟨found, more, t, hfirst, hmore, rfl⟩

/-- A repetition whose rounds are carried over. -/
theorem Carries.repeated [hadvances : step.Advances] (hstep : Progresses step)
    (hstop : ∀ ⦃v v' items⦄, v.length < n → Q (v' ++ x) →
      step (v ++ x) = .accepted (items, false) (v' ++ x) →
        step (v ++ y) = .accepted (items, false) (v' ++ y))
    (hgo : ∀ ⦃v v' items more rest⦄, v.length < n → Q rest →
      Parser.repeated step (v' ++ x) = .accepted more rest →
        step (v ++ x) = .accepted (items, true) (v' ++ x) →
          step (v ++ y) = .accepted (items, true) (v' ++ y)) :
    Carries x y n Q (Parser.repeated step) := by
  intro v v' items hn hQ h
  -- each round leaves less before the border
  induction hlength : v.length using Nat.strongRecOn generalizing v items with
  | _ k ih =>
    rcases exists_of_repeated hstep hadvances h with hlast | ⟨found, more, t, hround, hmore, rfl⟩
    · exact repeated_last (hstop hn hQ hlast)
    · have hrest : v' ++ x <:+ t :=
        (Advances.repeated hadvances).suffix_of_accepted hmore
      obtain ⟨u, rfl, hu⟩ := exists_before hround hrest
      have hlt := hstep hround
      rw [List.length_append, List.length_append] at hlt
      have hless : u.length < v.length := by omega
      refine repeated_cons (hgo hn hQ hmore hround) ?_ (ih u.length (hlength ▸ hless) (by omega)
        hmore rfl)
      rw [List.length_append, List.length_append]
      omega

/-- The rounds go on where the mark stands, and else take nothing. -/
def Marked (mark : Parser β) (step : Parser (List α × Bool)) : Prop :=
  ∀ ⦃s items goesOn t⦄, step s = .accepted (items, goesOn) t →
    goesOn = true ∧ accepts mark s = true ∨ goesOn = false ∧ items = [] ∧ t = s

variable {mark : Parser β}

/-- What stands before a repetition: the mark, or what stands behind the repetition. -/
theorem Marked.between (h : Marked mark step) (hstep : Progresses step)
    (hadvances : step.Advances) (hQ : ∀ r, Q r → R r) (hR : ∀ r, accepts mark r = true → R r)
    (hrepeated : repeated step s = .accepted items rest) (hrest : Q rest) : R s := by
  rcases exists_of_repeated hstep hadvances hrepeated with hlast | ⟨_, _, _, hround, -, -⟩
  · rcases h hlast with ⟨hgoesOn, -⟩ | ⟨-, -, rfl⟩
    · cases hgoesOn
    · exact hQ _ hrest
  · rcases h hround with ⟨-, hmark⟩ | ⟨hgoesOn, -⟩
    · exact hR _ hmark
    · cases hgoesOn

theorem Carries.repeated_of_marked (h : Marked mark step) (hstep : Progresses step)
    [hadvances : step.Advances] (hQ : ∀ r, Q r → R r) (hR : ∀ r, accepts mark r = true → R r)
    (hstop : ∀ ⦃v⦄, Q (v ++ x) → step (v ++ x) = .accepted ([], false) (v ++ x) →
      step (v ++ y) = .accepted ([], false) (v ++ y))
    (hgo : ∀ ⦃v v' items⦄, v.length < n → R (v' ++ x) →
      step (v ++ x) = .accepted (items, true) (v' ++ x) →
        step (v ++ y) = .accepted (items, true) (v' ++ y)) :
    Carries x y n Q (Parser.repeated step) := by
  refine .repeated hstep ?_ fun v v' items more rest hn hrest hmore => ?_
  · intro v v' items _ hrest hlast
    rcases h hlast with ⟨hgoesOn, -⟩ | ⟨-, rfl, hv⟩
    · cases hgoesOn
    · rw [hv] at hrest hlast
      rw [List.append_cancel_right hv]
      exact hstop hrest hlast
  · exact hgo hn (h.between hstep hadvances hQ hR hmore hrest)

theorem marked_attempt {f : Option β → Parser (List α × Bool)}
    (hnone : f none = Pure.pure ([], false))
    (hsome : ∀ b s items goesOn rest, f (some b) s = .accepted (items, goesOn) rest →
      goesOn = true) : Marked mark (attempt mark >>= f) := by
  intro s items goesOn t h
  obtain ⟨found, u, hfound, hthen⟩ := exists_of_bind h
  rcases of_attempt hfound with ⟨b, rfl, hb⟩ | ⟨rfl, rfl⟩
  · exact .inl ⟨hsome b u items goesOn t hthen, accepts_of_accepted hb⟩
  · rw [hnone] at hthen
    cases hthen
    exact .inr ⟨rfl, rfl, rfl⟩

theorem Carries.repeated_attempt {f : Option β → Parser (List α × Bool)}
    (hmark : Steady x y mark) (hstep : Progresses (attempt mark >>= f))
    (hadvances : (attempt mark >>= f).Advances) (hnone : f none = Pure.pure ([], false))
    (hgoesOn : ∀ b s items goesOn rest, f (some b) s = .accepted (items, goesOn) rest →
      goesOn = true) (hsome : ∀ b, Carries x y n R (f (some b)))
    (hQ : ∀ r, Q r → R r) (hR : ∀ r, accepts mark r = true → R r) :
    Carries x y n Q (Parser.repeated (attempt mark >>= f)) := by
  refine .repeated_of_marked (marked_attempt hnone hgoesOn) hstep hQ hR ?_ ?_
  · intro v _ h
    obtain ⟨found, t, hfound, hthen⟩ := exists_of_bind h
    cases found with
    | some b => cases hgoesOn b _ _ _ _ hthen
    | none =>
      obtain ⟨u, rfl, -, hfound'⟩ := hmark.attempt.exists_suffix hfound
      rw [bind_of_accepted hfound']
      rw [hnone] at hthen ⊢
      rw [List.append_cancel_right (Outcome.accepted.inj hthen).2]
      rfl
  · refine fun v v' items hn hR h => hmark.attempt.before (Q := R) (fun found => ?_) hn hR h
    cases found with
    | some b => exact hsome b
    | none => exact hnone ▸ .pure _

/-- A first part, and rounds behind it. -/
theorem Carries.chain {γ δ : Type} {first : Parser γ} [first.Advances] (g : γ → List α → δ)
    (h : Marked mark step) (hstep : Progresses step) [hadvances : step.Advances]
    (hfirst : Carries x y n R first) (hmore : Carries x y n Q (Parser.repeated step))
    (hQ : ∀ r, Q r → R r) (hR : ∀ r, accepts mark r = true → R r) :
    Carries x y n Q (first >>= fun a => g a <$> Parser.repeated step) := by
  have : (Parser.repeated step).Advances := .repeated hadvances
  refine hfirst.bind (fun a => hmore.map _) fun a t items rest h' hrest => ?_
  obtain ⟨more, t', hrepeated, heq⟩ := exists_of_bind h'
  obtain ⟨-, rfl⟩ := Outcome.accepted.inj heq
  exact h.between hstep hadvances hQ hR hrepeated hrest

end Repetitions

/-! ## Lists with separators -/

section Separated

variable {separator : Parser β} {element : Parser α}

theorem marked_furtherStep : Marked separator (furtherStep separator element) := by
  intro s items goesOn t h
  obtain ⟨found, u, hfound, hthen⟩ := exists_of_bind h
  rcases of_optional hfound with ⟨a, rfl, ha⟩ | ⟨rfl, rfl, -⟩
  · obtain ⟨b, _, hb, -⟩ := exists_of_bind ha
    cases hthen
    exact .inl ⟨rfl, accepts_of_accepted hb⟩
  · cases hthen
    exact .inr ⟨rfl, rfl, rfl⟩

theorem separated1_eq (separator : Parser β) (element : Parser α) :
    separated1 separator element = element >>= fun first =>
      (first :: ·) <$> Parser.repeated (furtherStep separator element) := rfl

theorem neverRefuses_furtherStep : (furtherStep separator element).NeverRefuses :=
  .bind (.optional _) fun found => by cases found <;> exact .pure _

variable [separator.Consumes] [element.Advances]

theorem progresses_furtherStep : Progresses (furtherStep separator element) :=
  have : (separator >>= fun _ => element).Consumes := .bind fun _ => inferInstance
  .optional (fun _ => inferInstance) (progresses_stop [])

/-- Elements and separators, where no separator follows. -/
theorem Carries.separated1 [separator.Advances] (hseparator : Steady x y separator)
    (helement : Carries x y n R element)
    (hQ : ∀ r, Q r → accepts separator r = false ∧ R r)
    (hR : ∀ r, accepts separator r = true → R r) :
    Carries x y n Q (separated1 separator element) := by
  have hadvances : (furtherStep separator element).Advances :=
    .bind fun found => by cases found <;> infer_instance
  have hfurther : Carries x y n R (separator >>= fun _ => element) :=
    hseparator.before fun _ => helement
  have hmore : Carries x y n Q (Parser.repeated (furtherStep separator element)) := by
    refine .repeated_of_marked marked_furtherStep progresses_furtherStep (fun r hr => (hQ r hr).2)
      hR ?_ ?_
    · intro v hv _
      obtain hx | ⟨_, _, hx, hy⟩ := hseparator v
      · obtain ⟨b, v', -, hx, -⟩ := hx
        have hno := (hQ _ hv).1
        rw [accepts_of_accepted hx] at hno
        cases hno
      · exact bind_of_accepted (optional_of_refused (bind_of_refused hy))
    · intro v v' items hn hv' h
      obtain ⟨found, t, hfound, hthen⟩ := exists_of_bind h
      rcases of_optional hfound with ⟨a, rfl, ha⟩ | ⟨rfl, rfl, -⟩
      · obtain ⟨heq, rfl⟩ := Outcome.accepted.inj hthen
        cases heq
        exact bind_of_accepted (optional_of_accepted (hfurther hn hv' ha))
      · cases hthen
  rw [separated1_eq]
  exact .chain (fun first more => first :: more) marked_furtherStep progresses_furtherStep helement
    hmore (fun r hr => (hQ r hr).2) hR

theorem advances_items (found : Option (List α)) :
    (match found with
      | some items => Pure.pure items
      | none => Pure.pure [] : Parser (List α)).Advances := by
  cases found <;> infer_instance

theorem Carries.separated [separator.Advances] (hseparator : Steady x y separator)
    (helement : Carries x y n R element) (hrefuses : Refuses x y element)
    (hQ : ∀ r, Q r → accepts separator r = false ∧ R r)
    (hR : ∀ r, accepts separator r = true → R r) :
    Carries x y n Q (Parser.separated separator element) := by
  have hadvances : (furtherStep separator element).Advances :=
    .bind fun found => by cases found <;> infer_instance
  have hrefuses : Refuses x y (Parser.separated1 separator element) :=
    hrefuses.bind fun _ => .bind
      (.repeated neverRefuses_furtherStep progresses_furtherStep hadvances) fun _ => .pure _
  have := advances_items (α := α)
  have hlist := (Carries.separated1 hseparator helement hQ hR).optional fun v place _ h =>
    hrefuses h
  refine hlist.bind (fun found => by cases found <;> exact .pure _) ?_
  intro found t items rest h hrest
  cases found <;> (cases h; exact hrest)

end Separated

end LineBasic.Parser
