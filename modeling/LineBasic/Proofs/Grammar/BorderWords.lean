import Mathlib.Data.List.Infix
import LineBasic.Proofs.Grammar.Borders
import LineBasic.Proofs.Grammar.Literals

/-!
# Words, names and numbers before an arm

The border is the word that an arm begins behind: both texts go on with `THEN` or `ELSE`, the one
with no letter behind it and the other one with a blank (`Grammar.Border`). A word that has neither
in it ends before the border, and so does its refusal (`Grammar.steady_keyword`). A name may begin
before the border and end behind it: `A THEN` is read as the name `A`, but `ATHEN` as one name. Such
a name is read in front of both borders, with another end, or refused in front of both
(`Grammar.refuses_variableName`), since `THEN` and `ELSE` are in no other reserved word
(`Grammar.reserved_spec`).
-/

namespace LineBasic.Grammar

open LineBasic.Parser

variable {x y v front s t rest : List Char} {n : Nat} {w : String}

/-! ## The border -/

/-- The words that an arm begins behind. -/
def IsArmWord (front : List Char) : Prop :=
  front.map foldCase = ['t', 'h', 'e', 'n'] ∨ front.map foldCase = ['e', 'l', 's', 'e']

/-- The texts begin with the same word and go on differently behind it. -/
structure Border (x y : List Char) : Prop where
  exists_word : ∃ front s t, x = front ++ s ∧ y = front ++ t ∧ IsArmWord front ∧
    (∀ c ∈ s.head?, ¬ c.isAlpha) ∧ ∀ c ∈ t.head?, Text.isBlank c

theorem isAlpha_of_foldCase {c : Char} (hk : foldCase c ≠ 'k') (h : (foldCase c).isAlpha) :
    c.isAlpha := by
  rw [foldCase_eq_toLower hk, isAlpha_iff, toNat_toLower] at h
  rw [isAlpha_iff]
  split at h <;> omega

theorem IsArmWord.isAlpha (h : IsArmWord front) : ∀ c ∈ front, c.isAlpha := by
  intro c hc
  have hmem : foldCase c ∈ front.map foldCase := List.mem_map_of_mem hc
  have hletter : foldCase c ≠ 'k' ∧ (foldCase c).isAlpha := by
    rcases h with h | h <;>
    · rw [h] at hmem
      simp only [List.mem_cons, List.not_mem_nil, or_false] at hmem
      rcases hmem with h | h | h | h <;> rw [h] <;> decide
  exact isAlpha_of_foldCase hletter.1 hletter.2

theorem IsArmWord.length_eq (h : IsArmWord front) : front.length = 4 := by
  rw [← List.length_map foldCase]
  rcases h with h | h <;> rw [h] <;> rfl

theorem IsArmWord.exists_cons (h : IsArmWord front) :
    ∃ k more, front = k :: more ∧ k.isAlpha ∧ (foldCase k = 't' ∨ foldCase k = 'e') := by
  rcases front with _ | ⟨k, more⟩
  · cases h.length_eq
  · refine ⟨k, more, rfl, h.isAlpha k List.mem_cons_self, ?_⟩
    exact h.imp (fun h => (List.cons.inj h).1) fun h => (List.cons.inj h).1

/-- Both texts begin with the same letter. -/
theorem Border.exists_head (hb : Border x y) :
    ∃ k x' y', x = k :: x' ∧ y = k :: y' ∧ k.isAlpha := by
  obtain ⟨front, s, t, rfl, rfl, hfront, -⟩ := hb.exists_word
  obtain ⟨k, more, rfl, hk, -⟩ := hfront.exists_cons
  exact ⟨k, more ++ s, more ++ t, rfl, rfl, hk⟩

/-! ## Words -/

/-- As many bytes as characters, and neither `THEN` nor `ELSE` in it. -/
def isClear (w : String) : Bool :=
  w.utf8ByteSize == w.toList.length && (w.toList.map foldCase).tails.all fun u =>
    !(['t', 'h', 'e', 'n'].isPrefixOf u) && !(['e', 'l', 's', 'e'].isPrefixOf u)

theorem utf8ByteSize_of_isClear (h : isClear w = true) : w.utf8ByteSize = w.toList.length :=
  eq_of_beq ((Bool.and_eq_true ..).mp h).1

theorem not_infix_of_isClear (h : isClear w = true) (hfront : IsArmWord front) :
    ¬ front.map foldCase <:+: w.toList.map foldCase := by
  rintro ⟨u, z, huz⟩
  have hmem : front.map foldCase ++ z ∈ (w.toList.map foldCase).tails := by
    rw [List.mem_tails, ← huz, List.append_assoc]
    exact List.suffix_append u _
  have hclear := List.all_eq_true.1 ((Bool.and_eq_true ..).mp h).2 _ hmem
  rw [Bool.and_eq_true, Bool.not_eq_true', Bool.not_eq_true'] at hclear
  rcases hfront with hfront | hfront
  · rw [hfront, List.isPrefixOf_iff_prefix.2 (List.prefix_append _ z)] at hclear
    cases hclear.1
  · rw [hfront, List.isPrefixOf_iff_prefix.2 (List.prefix_append _ z)] at hclear
    cases hclear.2

theorem agrees_append {as bs : List Char} (h : bs.length ≤ as.length) (s : List Char) :
    agrees (as ++ s) bs = agrees as bs := by
  induction as generalizing bs with
  | nil =>
    obtain rfl := List.length_eq_zero_iff.1 (Nat.le_zero.1 h)
    cases s <;> rfl
  | cons a as ih =>
    cases bs with
    | nil => rfl
    | cons b bs => rw [List.cons_append, agrees, agrees, ih (Nat.le_of_succ_le_succ h)]

theorem splitBytes?_append_of_le {n : Nat} {m : List Char} (h : n ≤ Text.byteSize m)
    (s : List Char) :
    Text.splitBytes? n (m ++ s) = (Text.splitBytes? n m).map fun (f, r) => (f, r ++ s) := by
  induction m generalizing n with
  | nil =>
    obtain rfl := Nat.le_zero.1 h
    rw [Text.splitBytes?, Text.splitBytes?]
    rfl
  | cons c m ih =>
    cases n with
    | zero =>
      rw [Text.splitBytes?, Text.splitBytes?]
      rfl
    | succ n =>
      rw [Text.byteSize_cons] at h
      rw [List.cons_append, Text.splitBytes?, Text.splitBytes?]
      split
      · rw [ih (by omega), Option.map_map, Option.map_map]
        rfl
      · rfl

theorem of_splitBytes? {n : Nat} {m f r : List Char} (h : Text.splitBytes? n m = some (f, r)) :
    m = f ++ r ∧ f.length ≤ n := by
  induction m generalizing n f with
  | nil =>
    cases n <;> rw [Text.splitBytes?] at h <;> cases h
    exact ⟨rfl, Nat.le_refl 0⟩
  | cons c m ih =>
    cases n with
    | zero =>
      rw [Text.splitBytes?] at h
      cases h
      exact ⟨rfl, Nat.le_refl 0⟩
    | succ n =>
      rw [Text.splitBytes?] at h
      split at h
      · obtain ⟨⟨f', r'⟩, hf', heq⟩ := Option.map_eq_some_iff.1 h
        cases heq
        obtain ⟨rfl, hle⟩ := ih hf'
        have hpos := c.utf8Size_pos
        exact ⟨rfl, by rw [List.length_cons]; omega⟩
      · cases h

theorem length_le_byteSize (m : List Char) : m.length ≤ Text.byteSize m := by
  induction m with
  | nil => exact Nat.le_refl 0
  | cons c m ih =>
    have hpos := c.utf8Size_pos
    rw [List.length_cons, Text.byteSize_cons]
    omega

/-- Whether a word stands at the front is decided by as many characters as it has. -/
theorem word_append_cases {m : List Char} (hw : w.utf8ByteSize = w.toList.length)
    (hle : w.toList.length ≤ m.length) (s t : List Char) :
    (∃ f r, m = f ++ r ∧ f.map foldCase <+: w.toList.map foldCase ∧
      word w (m ++ s) = .accepted (String.ofList f) (r ++ s) ∧
      word w (m ++ t) = .accepted (String.ofList f) (r ++ t)) ∨
    word w (m ++ s) = .refused (m ++ s) ∧ word w (m ++ t) = .refused (m ++ t) := by
  have hsize : w.utf8ByteSize ≤ Text.byteSize m :=
    Nat.le_trans (hw ▸ hle) (length_le_byteSize m)
  rw [word, word, agrees_append hle, agrees_append hle, splitBytes?_append_of_le hsize,
    splitBytes?_append_of_le hsize]
  by_cases hagrees : agrees m w.toList = true
  · rw [if_pos hagrees, if_pos hagrees]
    cases hsplit : Text.splitBytes? w.utf8ByteSize m with
    | none => exact .inr ⟨rfl, rfl⟩
    | some found =>
      obtain ⟨f, r⟩ := found
      obtain ⟨rfl, hf⟩ := of_splitBytes? hsplit
      rw [agrees_iff, List.take_of_length_le hle] at hagrees
      refine .inl ⟨f, r, rfl, ?_, rfl, rfl⟩
      rw [← hagrees]
      exact (List.prefix_take_iff.2 ⟨List.prefix_append f r, hw ▸ hf⟩).map foldCase
  · rw [if_neg hagrees, if_neg hagrees]
    exact .inr ⟨rfl, rfl⟩

/-- A word that goes further than the border does not stand here. -/
theorem word_of_length_lt {m : List Char} (hlt : m.length < w.toList.length)
    (h : ¬ m.map foldCase <:+: w.toList.map foldCase) (s : List Char) :
    word w (m ++ s) = .refused (m ++ s) := by
  rw [word, if_neg]
  intro hagrees
  rw [agrees_iff] at hagrees
  refine h (List.IsPrefix.isInfix ?_)
  have hprefix : m.map foldCase <+: (List.take w.toList.length (m ++ s)).map foldCase :=
    (List.prefix_take_iff.2 ⟨List.prefix_append m s, Nat.le_of_lt hlt⟩).map foldCase
  rw [hagrees, List.map_take] at hprefix
  exact hprefix.trans (List.take_prefix _ _)

/-- What is left behind a front part of the text before the border and the word there. -/
theorem exists_of_append_eq {f r : List Char} (h : v ++ front = f ++ r) :
    (∃ v', v' <:+ v ∧ r = v' ++ front) ∨ ∃ f', f' ≠ [] ∧ f = v ++ f' ∧ front = f' ++ r := by
  rcases List.append_eq_append_iff.1 h with ⟨f', rfl, hfront⟩ | ⟨v', rfl, rfl⟩
  · rcases f' with _ | ⟨c, f'⟩
    · exact .inl ⟨[], List.nil_suffix, by simpa using hfront.symm⟩
    · exact .inr ⟨c :: f', by simp, rfl, hfront⟩
  · exact .inl ⟨v', List.suffix_append f v', rfl⟩

/-- Whether a word of four letters or without `THEN` and `ELSE` stands at the front is decided up
to the border. -/
theorem IsArmWord.word_cases (hfront : IsArmWord front) (hw : w.utf8ByteSize = w.toList.length)
    (h : isClear w = true ∨ w.toList.length ≤ 4) (v s t : List Char) :
    (∃ f r, v ++ front = f ++ r ∧ f.map foldCase <+: w.toList.map foldCase ∧
      word w (v ++ (front ++ s)) = .accepted (String.ofList f) (r ++ s) ∧
      word w (v ++ (front ++ t)) = .accepted (String.ofList f) (r ++ t)) ∨
    word w (v ++ (front ++ s)) = .refused (v ++ (front ++ s)) ∧
      word w (v ++ (front ++ t)) = .refused (v ++ (front ++ t)) := by
  have hlength := hfront.length_eq
  rw [← List.append_assoc, ← List.append_assoc]
  by_cases hle : w.toList.length ≤ (v ++ front).length
  · exact word_append_cases hw hle s t
  · have hclear : isClear w = true := h.resolve_right fun hshort => hle <| by
      rw [List.length_append]
      omega
    have hnot : ¬ (v ++ front).map foldCase <:+: w.toList.map foldCase := fun hinfix => by
      refine not_infix_of_isClear hclear hfront (List.IsInfix.trans ?_ hinfix)
      rw [List.map_append]
      exact (List.suffix_append _ _).isInfix
    have hlt := Nat.lt_of_not_le hle
    exact .inr ⟨word_of_length_lt hlt hnot s, word_of_length_lt hlt hnot t⟩

/-- A word none of whose letters the border begins with. -/
theorem steady_word (hb : Border x y) (hclear : isClear w = true)
    (h : (w.toList.any fun c => foldCase c == 't' || foldCase c == 'e') = false) :
    Steady x y (word w) := by
  obtain ⟨front, s, t, rfl, rfl, hfront, -⟩ := hb.exists_word
  intro v
  rcases hfront.word_cases (utf8ByteSize_of_isClear hclear) (.inl hclear) v s t with
    ⟨f, r, heq, hprefix, hs, ht⟩ | ⟨hs, ht⟩
  · rcases exists_of_append_eq heq with ⟨v', hv', rfl⟩ | ⟨f', hf', rfl, rfl⟩
    · rw [List.append_assoc] at hs ht
      exact .inl ⟨_, v', hv', hs, ht⟩
    · obtain ⟨k, more, hk, -, hfold⟩ := hfront.exists_cons
      rcases f' with _ | ⟨c, f'⟩
      · exact absurd rfl hf'
      · obtain rfl : c = k := (List.cons.inj hk).1
        have hmem : foldCase c ∈ w.toList.map foldCase :=
          hprefix.subset (List.mem_map_of_mem (by simp))
        obtain ⟨d, hd, hdc⟩ := List.mem_map.1 hmem
        have hno := List.any_eq_false.1 h d hd
        rw [hdc] at hno
        rcases hfold with hfold | hfold <;> exact absurd (by rw [hfold]; rfl) hno
  · exact .inr ⟨_, _, hs, ht⟩

theorem refuses_word (hb : Border x y) (hclear : isClear w = true) :
    Refuses x y (Grammar.word w) := by
  obtain ⟨front, s, t, rfl, rfl, hfront, -⟩ := hb.exists_word
  intro v place hplace
  rcases hfront.word_cases (utf8ByteSize_of_isClear hclear) (.inl hclear) v s t with
    ⟨_, _, -, -, hs, -⟩ | ⟨-, ht⟩
  · rw [hplace] at hs
    cases hs
  · exact ⟨_, ht⟩

/-! ## Keywords -/

/-- The word of a keyword, and what follows it. -/
def unlettered (w : String) : Parser String := do
  let found ← word w
  match ← remaining with
  | c :: _ => if c.isAlpha then refuse else return found
  | [] => return found

theorem keyword_eq (w : String) :
    keyword w = blanks >>= fun _ => wholly (unlettered w) := rfl

theorem unlettered_of_word {found : String} (h : Grammar.word w s = .accepted found rest)
    (hrest : ∀ c ∈ rest.head?, ¬ c.isAlpha) : unlettered w s = .accepted found rest := by
  refine (bind_of_accepted h).trans ((bind_of_accepted (p := remaining) rfl).trans ?_)
  cases rest with
  | nil => rfl
  | cons c rest =>
    change (if c.isAlpha then refuse else Pure.pure _ : Parser String) _ = _
    rw [if_neg (hrest c rfl)]
    rfl

theorem unlettered_of_letter {found : String} (h : Grammar.word w s = .accepted found rest)
    (hrest : ∃ c ∈ rest.head?, c.isAlpha) : unlettered w s = .refused rest := by
  refine (bind_of_accepted h).trans ((bind_of_accepted (p := remaining) rfl).trans ?_)
  obtain ⟨c, hc, halpha⟩ := hrest
  cases rest with
  | nil => cases hc
  | cons d rest =>
    obtain rfl := Option.some.inj hc
    change (if d.isAlpha then refuse else Pure.pure _ : Parser String) _ = _
    rw [if_pos halpha]
    rfl

/-- Up to the border, the same characters follow. -/
theorem head?_append_border {r : List Char} (hs : ∀ c ∈ s.head?, ¬ c.isAlpha)
    (ht : ∀ c ∈ t.head?, ¬ c.isAlpha) :
    (∃ c ∈ (r ++ s).head?, c.isAlpha) ↔ ∃ c ∈ (r ++ t).head?, c.isAlpha := by
  cases r with
  | nil =>
    refine iff_of_false ?_ ?_
    · rintro ⟨c, hc, halpha⟩
      exact hs c hc halpha
    · rintro ⟨c, hc, halpha⟩
      exact ht c hc halpha
  | cons c r => exact Iff.rfl

theorem IsArmWord.unlettered_cases (hfront : IsArmWord front)
    (hw : w.utf8ByteSize = w.toList.length) (h : isClear w = true ∨ w.toList.length ≤ 4)
    (hs : ∀ c ∈ s.head?, ¬ c.isAlpha) (ht : ∀ c ∈ t.head?, ¬ c.isAlpha) (v : List Char) :
    (∃ f r, v ++ front = f ++ r ∧ f.map foldCase <+: w.toList.map foldCase ∧
      (∀ c ∈ r.head?, ¬ c.isAlpha) ∧
      unlettered w (v ++ (front ++ s)) = .accepted (String.ofList f) (r ++ s) ∧
      unlettered w (v ++ (front ++ t)) = .accepted (String.ofList f) (r ++ t)) ∨
    ∃ place place', unlettered w (v ++ (front ++ s)) = .refused place ∧
      unlettered w (v ++ (front ++ t)) = .refused place' := by
  rcases hfront.word_cases hw h v s t with ⟨f, r, heq, hprefix, hx, hy⟩ | ⟨hx, hy⟩
  · have hiff := head?_append_border (r := r) hs ht
    by_cases hletter : ∃ c ∈ (r ++ s).head?, c.isAlpha
    · exact .inr ⟨_, _, unlettered_of_letter hx hletter, unlettered_of_letter hy (hiff.1 hletter)⟩
    · have hno : ∀ c ∈ (r ++ s).head?, ¬ c.isAlpha := fun c hc halpha => hletter ⟨c, hc, halpha⟩
      have hno' : ∀ c ∈ (r ++ t).head?, ¬ c.isAlpha := fun c hc halpha =>
        hletter (hiff.2 ⟨c, hc, halpha⟩)
      refine .inl ⟨f, r, heq, hprefix, fun c hc => hno c ?_, unlettered_of_word hx hno,
        unlettered_of_word hy hno'⟩
      cases r with
      | nil => cases hc
      | cons d r => exact hc
  · exact .inr ⟨_, _, bind_of_refused hx, bind_of_refused hy⟩

theorem not_isAlpha_of_isBlank {c : Char} (h : Text.isBlank c) : ¬ c.isAlpha := by
  rw [Text.isBlank_iff] at h
  rw [isAlpha_iff]
  omega

/-- A word that is neither `THEN` nor `ELSE` and no part of which is ends before the border. -/
theorem steady_unlettered (hb : Border x y) (hclear : isClear w = true) :
    Steady x y (Grammar.unlettered w) := by
  obtain ⟨front, s, t, rfl, rfl, hfront, hs, ht⟩ := hb.exists_word
  intro v
  rcases hfront.unlettered_cases (utf8ByteSize_of_isClear hclear) (.inl hclear) hs
    (fun c hc => not_isAlpha_of_isBlank (ht c hc)) v with
    ⟨f, r, heq, hprefix, hr, hx, hy⟩ | hrefused
  · rcases exists_of_append_eq heq with ⟨v', hv', rfl⟩ | ⟨f', hf', rfl, hsplit⟩
    · rw [List.append_assoc] at hx hy
      exact .inl ⟨_, v', hv', hx, hy⟩
    · -- the word goes up to a letter of the border, or the border is a part of it
      rcases r with _ | ⟨c, r⟩
      · rw [List.append_nil] at hsplit
        subst hsplit
        rw [List.map_append] at hprefix
        exact absurd ((List.suffix_append _ _).isInfix.trans hprefix.isInfix)
          (not_infix_of_isClear hclear hfront)
      · exact absurd (hfront.isAlpha c (by simp [hsplit])) (hr c rfl)
  · exact .inr hrefused

/-! ## Characters -/

section Characters

variable {class? : Char → Bool}

/-- A class that holds no letters ends before the border. -/
theorem steady_takeWhile (hb : Border x y) (h : ∀ c : Char, c.isAlpha → ¬ class? c) :
    Steady x y (takeWhile class?) := by
  obtain ⟨k, x', y', rfl, rfl, hk⟩ := hb.exists_head
  intro v
  have split (z : List Char) : takeWhile class? (v ++ k :: z) =
      .accepted (v.takeWhile class?) (v.dropWhile class? ++ k :: z) := by
    conv_lhs => rw [← List.takeWhile_append_dropWhile (p := class?) (l := v), List.append_assoc]
    refine takeWhile_append (fun c => List.mem_takeWhile_imp) fun c hc => ?_
    cases hv : v.dropWhile class? with
    | nil =>
      rw [hv] at hc
      obtain rfl : k = c := Option.some.inj hc
      exact h k hk
    | cons d rest =>
      have hhead := List.head?_dropWhile_not class? v
      rw [hv] at hc hhead
      obtain rfl : d = c := Option.some.inj hc
      simpa using hhead
  exact .inl ⟨_, _, List.dropWhile_suffix class?, split x', split y'⟩

theorem carries_takeWhile (hb : Border x y) {Q : List Char → Prop} :
    Carries x y n Q (Parser.takeWhile class?) := by
  obtain ⟨k, x', y', rfl, rfl, hk⟩ := hb.exists_head
  intro v v' a _ _ h
  obtain ⟨heq, hall, hrest⟩ := of_takeWhile h
  rw [← List.append_assoc] at heq
  rw [List.append_cancel_right heq, List.append_assoc]
  refine takeWhile_append hall fun c hc => hrest c ?_
  cases v' <;> exact hc

theorem carries_takeWhile1 (hb : Border x y) {Q : List Char → Prop} :
    Carries x y n Q (Parser.takeWhile1 class?) := by
  obtain ⟨k, x', y', rfl, rfl, hk⟩ := hb.exists_head
  intro v v' a _ _ h
  obtain ⟨heq, hne, hall, hrest⟩ := of_takeWhile1 h
  rw [← List.append_assoc] at heq
  rw [List.append_cancel_right heq, List.append_assoc]
  refine takeWhile1_append hne hall fun c hc => hrest c ?_
  cases v' <;> exact hc

theorem carries_satisfy (hb : Border x y) {Q : List Char → Prop} :
    Carries x y n Q (Parser.satisfy class?) := by
  obtain ⟨k, x', y', rfl, rfl, hk⟩ := hb.exists_head
  intro v v' c _ _ h
  obtain ⟨heq, hc⟩ := of_satisfy h
  rw [← List.cons_append] at heq
  rw [List.append_cancel_right heq]
  exact satisfy_cons hc

/-- The same character stands before both borders, and at them. -/
theorem Border.head?_append (hb : Border x y) (v : List Char) :
    (v ++ x).head? = (v ++ y).head? := by
  obtain ⟨k, x', y', rfl, rfl, -⟩ := hb.exists_head
  cases v <;> rfl

theorem refuses_satisfy (hb : Border x y) : Refuses x y (Parser.satisfy class?) := by
  intro v place h
  refine ⟨v ++ y, satisfy_of_head fun c hc hclass => ?_⟩
  rw [← hb.head?_append v] at hc
  obtain ⟨rest, hrest⟩ := List.head?_eq_some_iff.1 hc
  rw [hrest, satisfy_cons hclass] at h
  cases h

theorem refuses_takeWhile1 (hb : Border x y) : Refuses x y (Parser.takeWhile1 class?) := by
  intro v place h
  refine ⟨v ++ y, takeWhile1_of_head fun c hc hclass => ?_⟩
  rw [← hb.head?_append v] at hc
  obtain ⟨rest, hrest⟩ := List.head?_eq_some_iff.1 hc
  rw [Parser.takeWhile1, hrest, List.takeWhile_cons_of_pos hclass] at h
  cases h

theorem steady_satisfy (hb : Border x y) (h : ∀ c : Char, c.isAlpha → ¬ class? c) :
    Steady x y (Parser.satisfy class?) := by
  obtain ⟨k, x', y', rfl, rfl, hk⟩ := hb.exists_head
  intro v
  rcases v with _ | ⟨c, v⟩
  · have hrefused (z : List Char) : Parser.satisfy class? (k :: z) = .refused (k :: z) := by
      refine satisfy_of_head ?_
      rintro _ ⟨⟩
      exact h k hk
    exact .inr ⟨_, _, hrefused x', hrefused y'⟩
  · by_cases hc : class? c = true
    · exact .inl ⟨c, v, List.suffix_cons c v, satisfy_cons hc, satisfy_cons hc⟩
    · have hrefused (z : List Char) : Parser.satisfy class? (c :: z) = .refused (c :: z) := by
        refine satisfy_of_head ?_
        rintro _ ⟨⟩
        exact hc
      exact .inr ⟨_, _, hrefused _, hrefused _⟩

theorem steady_takeWhile1 (hb : Border x y) (h : ∀ c : Char, c.isAlpha → ¬ class? c) :
    Steady x y (Parser.takeWhile1 class?) := by
  intro v
  cases hx : Parser.takeWhile1 class? (v ++ x) with
  | accepted front rest =>
    obtain ⟨heq, hne, hall, hrest⟩ := of_takeWhile1 hx
    have hfront : Parser.takeWhile class? (v ++ x) = .accepted front rest := by
      rw [heq]
      exact takeWhile_append hall hrest
    obtain ⟨v', rfl, hv', -⟩ := (steady_takeWhile hb h).exists_suffix hfront
    exact .inl ⟨front, v', hv', rfl,
      carries_takeWhile1 hb (Q := fun _ => True) (Nat.lt_succ_self _) trivial hx⟩
  | refused place =>
    obtain ⟨place', hplace'⟩ := refuses_takeWhile1 hb hx
    exact .inr ⟨place, place', rfl, hplace'⟩
  | aborted place =>
    rw [Parser.takeWhile1] at hx
    split at hx <;> cases hx

theorem steady_exactly (hb : Border x y) {sign : List Char} (h : sign.any Char.isAlpha = false) :
    Steady x y (Grammar.exactly sign) := by
  obtain ⟨k, x', y', rfl, rfl, hk⟩ := hb.exists_head
  intro v
  by_cases hsign : sign <+: v
  · obtain ⟨v', rfl⟩ := hsign
    have haccepted (z : List Char) : Grammar.exactly sign (sign ++ v' ++ k :: z) =
        .accepted (String.ofList sign) (v' ++ k :: z) := by
      rw [List.append_assoc, exactly_append]
    exact .inl ⟨_, v', List.suffix_append sign v', haccepted x', haccepted y'⟩
  · have hrefused (z : List Char) :
        Grammar.exactly sign (v ++ k :: z) = .refused (v ++ k :: z) := by
      rw [Grammar.exactly, if_neg]
      intro hprefix
      rw [List.isPrefixOf_iff_prefix] at hprefix
      rcases List.prefix_or_prefix_of_prefix hprefix (List.prefix_append v _) with hv | ⟨more, rfl⟩
      · exact hsign hv
      · rcases more with _ | ⟨c, more⟩
        · exact hsign (by simp)
        · obtain rfl : c = k :=
            (List.cons_prefix_cons.1 ((List.prefix_append_right_inj v).1 hprefix)).1
          exact List.any_eq_false.1 h c (by simp) hk
    exact .inr ⟨_, _, hrefused x', hrefused y'⟩

end Characters

/-! ## Words, names and numbers -/

theorem steady_blanks (hb : Border x y) : Steady x y Grammar.blanks :=
  steady_takeWhile hb fun _ halpha hblank => not_isAlpha_of_isBlank hblank halpha

theorem steady_keyword (hb : Border x y) (h : isClear w = true) : Steady x y (Grammar.keyword w) :=
  (steady_blanks hb).bind fun _ => (steady_unlettered hb h).wholly

theorem steady_symbol (hb : Border x y) (h : w.toList.any Char.isAlpha = false) :
    Steady x y (Grammar.symbol w) :=
  (steady_blanks hb).bind fun _ => steady_exactly hb h

theorem carries_spelledName (hb : Border x y) {Q : List Char → Prop} :
    Carries x y n Q Grammar.spelledName := by
  have hsuffix : Steady x y (Parser.satisfy fun c => (StorageType.ofSuffix? c).isSome) :=
    steady_satisfy hb fun c halpha hsome => by
      rw [isAlpha_iff] at halpha
      rw [StorageType.isSome_ofSuffix?_iff] at hsome
      omega
  exact (carries_satisfy hb).seq fun _ => (carries_takeWhile hb).seq fun _ =>
    hsuffix.optional.before fun _ => .pure _

/-- A name, if it may name a variable. -/
def admitted (text : List Char) : Parser Name :=
  if isVariableName ⟨String.ofList text⟩ then return ⟨String.ofList text⟩ else refuse

theorem variableName_eq :
    Grammar.variableName = blanks >>= fun _ => wholly (Grammar.spelledName >>= admitted) := rfl

theorem steady_admitted (text : List Char) : Steady x y (admitted text) := by
  rw [admitted]
  split
  · exact .pure _
  · exact .refuse

instance (text : List Char) : (admitted text).Advances := by
  unfold admitted
  split <;> infer_instance

theorem carries_variableName (hb : Border x y) {Q : List Char → Prop} :
    Carries x y n Q Grammar.variableName := by
  rw [variableName_eq]
  exact (steady_blanks hb).before fun _ => .wholly <|
    (carries_spelledName hb).seq fun text => (steady_admitted text).carries

theorem advances_intrinsic (text : List Char) :
    (match Intrinsic.ofName? (Text.upper (String.ofList text)) with
      | some f => Pure.pure f
      | none => refuse : Parser Intrinsic).Advances := by
  split <;> infer_instance

theorem carries_intrinsicName (hb : Border x y) {Q : List Char → Prop} :
    Carries x y n Q Grammar.intrinsicName := by
  have := advances_intrinsic
  refine (steady_blanks hb).before fun _ => .wholly ((carries_spelledName hb).seq fun text => ?_)
  split
  · exact .pure _
  · exact Steady.refuse.carries

theorem carries_functionName (hb : Border x y) {Q : List Char → Prop} :
    Carries x y n Q Grammar.functionName :=
  ((steady_blanks hb).before fun _ => (steady_word hb (by decide) (by decide)).before fun _ =>
    (steady_blanks hb).before fun _ => (carries_spelledName hb).seq fun _ => .pure _)

theorem refuses_spelledName (hb : Border x y) : Refuses x y Grammar.spelledName :=
  (refuses_satisfy hb).bind fun _ => .bind (.takeWhile _) fun _ =>
    .bind (.optional _) fun _ => .pure _

theorem refuses_functionName (hb : Border x y) : Refuses x y Grammar.functionName :=
  (steady_blanks hb).refusesBefore fun _ =>
    (steady_word hb (by decide) (by decide)).refusesBefore fun _ =>
      (steady_blanks hb).refusesBefore fun _ => (refuses_spelledName hb).bind fun _ => .pure _

theorem carries_quoted (hb : Border x y) {Q : List Char → Prop} :
    Carries x y n Q Grammar.quoted := by
  have hquote : Steady x y (Parser.satisfy (· == '"')) := steady_satisfy hb fun c halpha hc => by
    rw [eq_of_beq hc] at halpha
    exact absurd halpha (by decide)
  exact (steady_blanks hb).before fun _ => hquote.before fun _ =>
    (carries_takeWhile hb).seq fun _ => hquote.optional.before fun _ => .pure _

theorem refuses_quoted (hb : Border x y) : Refuses x y Grammar.quoted :=
  (steady_blanks hb).refusesBefore fun _ => (refuses_satisfy hb).bind fun _ =>
    .bind (.takeWhile _) fun _ => .bind (.optional _) fun _ => .pure _

theorem not_isDigit_of_isAlpha {c : Char} (h : c.isAlpha) : ¬ c.isDigit := by
  rw [isAlpha_iff] at h
  rw [isDigit_iff]
  omega

theorem steady_wholeNumber (hb : Border x y) : Steady x y Grammar.wholeNumber := by
  refine (steady_blanks hb).bind fun _ => Steady.wholly ?_
  refine (steady_takeWhile1 hb fun _ => not_isDigit_of_isAlpha).bind fun digits => ?_
  dsimp only
  split
  · exact .pure _
  · exact .refuse

theorem steady_mantissa (hb : Border x y) : Steady x y Grammar.mantissa := by
  have hpoint : Steady x y (Parser.satisfy (· == '.')) := steady_satisfy hb fun c halpha hc => by
    rw [eq_of_beq hc] at halpha
    exact absurd halpha (by decide)
  have hdigits : Steady x y (Parser.takeWhile1 Char.isDigit) :=
    steady_takeWhile1 hb fun _ => not_isDigit_of_isAlpha
  refine hdigits.optional.bind fun found => ?_
  cases found with
  | none => exact hpoint.bind fun _ => hdigits.bind fun _ => .pure _
  | some front =>
    refine hpoint.optional.bind fun point => ?_
    cases point with
    | none => exact .pure _
    | some _ =>
      exact (steady_takeWhile hb fun _ => not_isDigit_of_isAlpha).bind fun _ => .pure _

theorem carries_exponentPart (hb : Border x y) {Q : List Char → Prop} :
    Carries x y n Q Grammar.exponentPart := by
  have hsign : Steady x y (Parser.satisfy fun c => c == '+' || c == '-') :=
    steady_satisfy hb fun c halpha hc => by
      rw [Bool.or_eq_true, beq_iff_eq, beq_iff_eq] at hc
      rcases hc with rfl | rfl <;> exact absurd halpha (by decide)
  exact (carries_satisfy hb).seq fun _ => hsign.optional.before fun _ =>
    (carries_takeWhile1 hb).committed.seq fun _ => .pure _

theorem refuses_exponentPart (hb : Border x y) : Refuses x y Grammar.exponentPart :=
  (refuses_satisfy hb).bind fun _ => .bind (.optional _) fun _ => .bind (.committed _) fun _ =>
    .pure _

theorem carries_decimal (hb : Border x y) {Q : List Char → Prop} :
    Carries x y n Q Grammar.decimal := by
  have hsuffix : Steady x y
      (Parser.satisfy fun c => (StorageType.ofSuffix? c).any StorageType.isNumeric) :=
    steady_satisfy hb fun c halpha hany => by
      have hsome : (StorageType.ofSuffix? c).isSome = true := Option.isSome_of_any hany
      rw [isAlpha_iff] at halpha
      rw [StorageType.isSome_ofSuffix?_iff] at hsome
      omega
  have hexponent := (carries_exponentPart hb (n := n) (Q := fun _ => True)).optional
    fun _ _ _ h => refuses_exponentPart hb h
  exact (steady_mantissa hb).before fun _ => hexponent.seq fun _ =>
    hsuffix.optional.before fun _ => .pure _

theorem refuses_decimal (hb : Border x y) : Refuses x y Grammar.decimal :=
  (steady_mantissa hb).refuses.bind fun _ => .bind (.optional _) fun _ =>
    .bind (.optional _) fun _ => .pure _

theorem carries_hexadecimal (hb : Border x y) {Q : List Char → Prop} :
    Carries x y n Q Grammar.hexadecimal :=
  (steady_word hb (by decide) (by decide)).before fun _ =>
    (carries_takeWhile1 hb).seq fun _ => .pure _

theorem refuses_hexadecimal (hb : Border x y) : Refuses x y Grammar.hexadecimal :=
  (steady_word hb (by decide) (by decide)).refusesBefore fun _ =>
    (refuses_takeWhile1 hb).bind fun _ => .pure _

/-- The value of a number behind the blanks before it. -/
def numberValue : Parser Float := do
  match ← attempt hexadecimal with
  | some n => Pure.pure (Float.ofNat n)
  | none => Decimal.toFloat <$> decimal

theorem number_eq : Grammar.number = blanks >>= fun _ => remaining >>= fun start =>
    numberValue >>= fun value => remaining >>= fun rest =>
      Pure.pure (value, String.ofList (start.take (start.length - rest.length))) := by
  rw [Grammar.number]
  congr 1
  funext _
  congr 1
  funext start s
  change Parser.bind _ _ s = Parser.bind (Parser.bind _ _) _ s
  rw [Parser.bind, Parser.bind, Parser.bind]
  cases attempt hexadecimal s with
  | accepted found t => cases found <;> rfl
  | refused | aborted => rfl

instance : numberValue.Advances := .bind fun found => by cases found <;> infer_instance

theorem hexadecimal_ne_aborted (s place : List Char) : Grammar.hexadecimal s ≠ .aborted place := by
  intro h
  change Parser.bind _ _ s = _ at h
  rw [Parser.bind, Grammar.word] at h
  split at h
  next rest heq =>
    change Parser.bind _ _ rest = _ at h
    rw [Parser.bind, Parser.takeWhile1] at h
    split at h
    next => cases h
    next => cases h
    next haborted => split at haborted <;> cases haborted
  next => cases h
  next haborted =>
    split at haborted
    · split at haborted <;> cases haborted
    · cases haborted

theorem attempt_hexadecimal (hb : Border x y) {v : List Char}
    (h : attempt Grammar.hexadecimal (v ++ x) = .accepted none t) :
    attempt Grammar.hexadecimal (v ++ y) = .accepted none (v ++ y) := by
  refine attempt_of_not_accepts ?_
  cases hx : Grammar.hexadecimal (v ++ x) with
  | accepted a t =>
    rw [attempt_of_accepted hx] at h
    cases h
  | refused place =>
    obtain ⟨place', hy⟩ := refuses_hexadecimal hb hx
    exact accepts_of_refused hy
  | aborted place => exact absurd hx (hexadecimal_ne_aborted _ place)

theorem carries_numberValue (hb : Border x y) {Q : List Char → Prop} :
    Carries x y n Q Grammar.numberValue := by
  have hhexadecimal : Carries x y n (fun _ => True) (attempt Grammar.hexadecimal) := by
    intro v v' found hn _ h
    rcases of_attempt h with ⟨a, rfl, ha⟩ | ⟨rfl, hv⟩
    · exact attempt_of_accepted (carries_hexadecimal hb (Q := fun _ => True) hn trivial ha)
    · rw [List.append_cancel_right hv]
      exact attempt_hexadecimal hb h
  have (found : Option Nat) : (match found with
      | some n => Pure.pure (Float.ofNat n)
      | none => Decimal.toFloat <$> Grammar.decimal : Parser Float).Advances := by
    split <;> infer_instance
  refine hhexadecimal.seq fun found => ?_
  cases found with
  | some n => exact .pure _
  | none => exact (carries_decimal hb).map _

theorem refuses_numberValue (hb : Border x y) : Refuses x y Grammar.numberValue := by
  intro v place h
  cases hx : attempt Grammar.hexadecimal (v ++ x) with
  | accepted found t =>
    have hthen := (bind_of_accepted hx).symm.trans h
    rcases of_attempt hx with ⟨a, rfl, -⟩ | ⟨rfl, rfl⟩
    · cases hthen
    · have hdecimal := refused_of_bind (fun _ => .pure _) hthen
      obtain ⟨place', hy⟩ := refuses_decimal hb hdecimal
      exact ⟨place', (bind_of_accepted (attempt_hexadecimal hb hx)).trans (map_of_refused hy)⟩
  | refused | aborted =>
    rw [attempt] at hx
    split at hx <;> cases hx

theorem carries_number (hb : Border x y) {Q : List Char → Prop} :
    Carries x y n Q Grammar.number := by
  rw [number_eq]
  refine (steady_blanks hb).before fun _ => ?_
  intro v v' found hn hQ h
  obtain ⟨value, t, hvalue, h⟩ := exists_of_bind (p := Grammar.numberValue) h
  obtain ⟨_, _, hrest, heq⟩ := exists_of_bind h
  obtain ⟨rfl, rfl⟩ := Outcome.accepted.inj hrest
  obtain ⟨rfl, rfl⟩ := Outcome.accepted.inj heq
  have hvalue' := carries_numberValue hb hn hQ hvalue
  have htext (z : List Char) : (v ++ z).take ((v ++ z).length - (v' ++ z).length) =
      v.take (v.length - v'.length) := by
    rw [List.length_append, List.length_append, Nat.add_sub_add_right,
      List.take_append_of_le_length (Nat.sub_le _ _)]
  rw [htext x, ← htext y]
  refine (bind_of_accepted (p := remaining) rfl).trans ((bind_of_accepted hvalue').trans ?_)
  exact (bind_of_accepted (p := remaining) rfl).trans rfl

theorem refuses_number (hb : Border x y) : Refuses x y Grammar.number := by
  rw [number_eq]
  refine (steady_blanks hb).refusesBefore fun _ v place h => ?_
  have hvalue : Grammar.numberValue (v ++ x) = .refused place :=
    refused_of_bind (fun _ => .bind .remaining fun _ => .pure _) h
  obtain ⟨place', hy⟩ := refuses_numberValue hb hvalue
  exact ⟨place', (bind_of_accepted (p := remaining) rfl).trans (bind_of_refused hy)⟩

/-! ## Names of variables -/

/-- A name that a blank follows. -/
theorem spelledName_of_blank {c : Char} {m : List Char} (hc : c.isAlpha)
    (hm : ∀ d ∈ m, isInner d) (ht : ∀ d ∈ t.head?, Text.isBlank d) :
    Grammar.spelledName (c :: m ++ t) = .accepted (c :: m) t := by
  have hstop : ∀ d ∈ t.head?, ¬ isInner d ∧ ¬ (StorageType.ofSuffix? d).isSome := by
    intro d hd
    have hblank := (Text.isBlank_iff d).1 (ht d hd)
    rw [isInner_iff, StorageType.isSome_ofSuffix?_iff]
    omega
  refine (bind_of_accepted (satisfy_cons hc)).trans ?_
  refine (bind_of_accepted (takeWhile_append hm fun d hd => (hstop d hd).1)).trans ?_
  have hnone := optional_of_refused (satisfy_of_head fun d hd => (hstop d hd).2)
  refine (bind_of_accepted hnone).trans ?_
  rw [Option.toList_none, List.append_nil]
  rfl

/-- A name that is read across the border takes all of the word there. -/
theorem spelledName_cases (hfront : IsArmWord front) (ht : ∀ c ∈ t.head?, Text.isBlank c)
    {text : List Char} (h : Grammar.spelledName (v ++ (front ++ s)) = .accepted text rest) :
    (∃ v', rest = v' ++ (front ++ s)) ∨
      (∃ more, text = v ++ front ++ more) ∧
        Grammar.spelledName (v ++ (front ++ t)) = .accepted (v ++ front) t := by
  obtain ⟨first, s₁, h₁, h⟩ := exists_of_bind h
  obtain ⟨middle, s₂, h₂, h⟩ := exists_of_bind h
  obtain ⟨suffix, s₃, h₃, h⟩ := exists_of_bind h
  obtain ⟨rfl, rfl⟩ := Outcome.accepted.inj h
  obtain ⟨heq, hfirst⟩ := of_satisfy h₁
  obtain ⟨rfl, hmiddle, hstop⟩ := of_takeWhile h₂
  rw [← List.append_assoc, ← List.cons_append] at heq
  have across {z : List Char} (hz : first :: middle = v ++ front ++ z) :
      (∃ more, first :: middle ++ suffix.toList = v ++ front ++ more) ∧
        Grammar.spelledName (v ++ (front ++ t)) = .accepted (v ++ front) t := by
    refine ⟨⟨z ++ suffix.toList, by rw [hz, List.append_assoc]⟩, ?_⟩
    rw [← List.append_assoc]
    rcases hv : v ++ front with _ | ⟨c, m⟩
    · have hlength := hfront.length_eq
      rw [(List.append_eq_nil_iff.1 hv).2] at hlength
      cases hlength
    · rw [hv, List.cons_append] at hz
      obtain ⟨rfl, rfl⟩ := List.cons.inj hz
      exact spelledName_of_blank hfirst (fun d hd => hmiddle d (by simp [hd])) ht
  have inner : ∀ c ∈ front, isInner c := fun c hc => by
    have hletter := hfront.isAlpha c hc
    rw [isAlpha_iff] at hletter
    rw [isInner_iff]
    omega
  rcases List.append_eq_append_iff.1 heq with ⟨z, hz, -⟩ | ⟨z, hz, rfl⟩
  · exact .inr (across hz)
  rcases exists_of_append_eq hz with ⟨v', -, rfl⟩ | ⟨f', hf', hv, hsplit⟩
  · -- the name ends before the border, or its suffix does
    rcases v' with _ | ⟨d, v'⟩
    · obtain ⟨k, more, rfl, -⟩ := hfront.exists_cons
      exact absurd (inner k List.mem_cons_self) (hstop k rfl)
    · rw [List.append_assoc] at h₃
      rcases of_optional h₃ with ⟨c, -, hc⟩ | ⟨-, rfl, -⟩
      · exact .inl ⟨v', (List.cons.inj (of_satisfy hc).1).2.symm⟩
      · exact .inl ⟨d :: v', rfl⟩
  · rcases z with _ | ⟨d, z⟩
    · exact .inr (across (z := []) (by rw [List.append_nil, hsplit, List.append_nil, hv]))
    · exact absurd (inner d (by simp [hsplit])) (hstop d rfl)

/-- `THEN` and `ELSE` are in no other reserved word. -/
theorem reserved_spec : ∀ w ∈ reserved, ∀ u ∈ [['T', 'H', 'E', 'N'], ['E', 'L', 'S', 'E']],
    u <:+: w.toList → w.toList = u := by
  decide

theorem reserved_of_isArmWord : ∀ u ∈ [['T', 'H', 'E', 'N'], ['E', 'L', 'S', 'E']],
    reserved.contains (String.ofList u) = true := by
  decide

theorem IsArmWord.map_toUpper (h : IsArmWord front) :
    front.map Char.toUpper ∈ [['T', 'H', 'E', 'N'], ['E', 'L', 'S', 'E']] := by
  have upper {w : List Char} (hw : (w.all fun c => foldCase c == c && c != 'k') = true)
      (h : front.map foldCase = w) : front.map Char.toUpper = w.map Char.toUpper := by
    rw [← h, List.map_map]
    refine List.map_congr_left fun c hc => ?_
    have hfold := List.all_eq_true.1 hw (foldCase c) (h ▸ List.mem_map_of_mem hc)
    rw [Bool.and_eq_true, beq_iff_eq, bne_iff_ne] at hfold
    exact toUpper_of_foldCase (hfold.1.symm ▸ hfold.2) hfold.1.symm
  rcases h with h | h
  · exact upper (by decide) h ▸ by decide
  · exact upper (by decide) h ▸ by decide

theorem key_ofList (text : List Char) :
    (Name.mk (String.ofList text)).key = String.ofList (text.map Char.toUpper) := by
  rw [← String.toList_inj, Name.key, Text.upper, String.toList_map, String.toList_ofList,
    String.toList_ofList]

/-- What is no name of a variable with more behind the border is none without it. -/
theorem not_isVariableName_of_append (hfront : IsArmWord front) {more : List Char}
    (h : isVariableName ⟨String.ofList (v ++ front ++ more)⟩ = false) :
    isVariableName ⟨String.ofList (v ++ front)⟩ = false := by
  have hupper := hfront.map_toUpper
  rw [isVariableName, Bool.and_eq_false_iff, Bool.not_eq_false', Bool.not_eq_false', key_ofList,
    String.toList_ofList] at h ⊢
  rw [List.map_append] at h
  rcases h with h | h
  · have hmem := List.contains_iff_mem.1 h
    have hword := reserved_spec _ hmem _ hupper
    rw [String.toList_ofList, List.map_append] at hword
    have hlength := congrArg List.length (hword ⟨_, _, rfl⟩)
    simp only [List.length_append, List.length_map] at hlength
    obtain rfl : v = [] := List.length_eq_zero_iff.1 (by omega)
    exact .inl (reserved_of_isArmWord _ hupper)
  · refine .inr (List.isPrefixOf_iff_prefix.2 ?_)
    refine List.prefix_of_prefix_length_le (List.isPrefixOf_iff_prefix.1 h)
      (List.prefix_append _ _) ?_
    rw [List.length_map, List.length_append, hfront.length_eq]
    exact Nat.le_add_left 2 (v.length + 2)

theorem refuses_variableName (hb : Border x y) : Refuses x y Grammar.variableName := by
  obtain ⟨front, s, t, rfl, rfl, hfront, -, ht⟩ := id hb
  rw [variableName_eq]
  refine (steady_blanks hb).refusesBefore fun _ v place h => ?_
  have refused {z text rest : List Char} (hname : Grammar.spelledName z = .accepted text rest)
      (hno : isVariableName ⟨String.ofList text⟩ = false) :
      wholly (Grammar.spelledName >>= admitted) z = .refused z := by
    refine wholly_of_refused (t := rest) ((bind_of_accepted hname).trans ?_)
    rw [admitted, hno]
    rfl
  cases hx : Grammar.spelledName (v ++ (front ++ s)) with
  | accepted text rest =>
    cases htext : isVariableName ⟨String.ofList text⟩ with
    | true =>
      have hadmitted : admitted text rest = .accepted ⟨String.ofList text⟩ rest := by
        rw [admitted, htext]
        rfl
      have haccepted := wholly_of_accepted ((bind_of_accepted hx).trans hadmitted)
      cases h.symm.trans haccepted
    | false =>
      rcases spelledName_cases hfront ht hx with ⟨v', rfl⟩ | ⟨⟨more, rfl⟩, hy⟩
      · have hy := carries_spelledName hb (Q := fun _ => True) (Nat.lt_succ_self _) trivial hx
        exact ⟨_, refused hy htext⟩
      · exact ⟨_, refused hy (not_isVariableName_of_append hfront htext)⟩
  | refused place =>
    obtain ⟨place', hy⟩ := refuses_spelledName hb hx
    exact ⟨_, wholly_of_refused (bind_of_refused hy)⟩
  | aborted place =>
    cases h.symm.trans (wholly_of_aborted (bind_of_aborted hx))

end LineBasic.Grammar
