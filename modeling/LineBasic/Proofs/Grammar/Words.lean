import LineBasic.Proofs.Grammar.Characters
import LineBasic.Proofs.Grammar.Combinators

/-!
# Words and marks

A word stands at the front of an input if as many characters as it has agree with it up to case
(`Grammar.word_append`, `Grammar.word_of_not_begins`). A keyword in addition is not followed by a
letter. Blanks before them do not matter.
-/

namespace LineBasic.Grammar

open LineBasic.Parser

variable {s t rest front lead : List Char} {c : Char}

/-! ## Blanks -/

/-- Nothing but spaces and tabs. -/
def IsBlank (s : List Char) : Prop := ∀ c ∈ s, Text.isBlank c

/-- The input does not begin with a blank. -/
def StartsDark (s : List Char) : Prop := ∀ c ∈ s.head?, ¬ Text.isBlank c

theorem isBlank_nil : IsBlank [] := List.forall_mem_nil _

theorem isBlank_space : IsBlank [' '] := List.forall_mem_singleton.2 rfl

theorem startsDark_cons (h : ¬ Text.isBlank c) : StartsDark (c :: s) := by
  rintro _ ⟨⟩
  exact h

theorem blanks_append (hlead : IsBlank lead) (h : StartsDark s) :
    blanks (lead ++ s) = .accepted lead s :=
  takeWhile_append hlead h

/-- Blanks at the front of what a parser reads after blanks. -/
theorem after_blanks {α : Type} {f : List Char → Parser α} (hlead : IsBlank lead)
    (h : StartsDark s) : (blanks >>= f) (lead ++ s) = f lead s :=
  bind_of_accepted (blanks_append hlead h)

theorem exists_of_blanks (s : List Char) :
    ∃ lead dark, s = lead ++ dark ∧ IsBlank lead ∧ StartsDark dark ∧
      blanks s = .accepted lead dark := by
  have hblanks : blanks s = .accepted (s.takeWhile Text.isBlank) (s.dropWhile Text.isBlank) := rfl
  obtain ⟨hs, hlead, hdark⟩ := of_takeWhile hblanks
  exact ⟨_, _, hs, hlead, hdark, hblanks⟩

/-! ## Words -/

/-- All characters are of ASCII, and none of them is a `k`, which other characters fold to. -/
def isPlain (w : String) : Bool := w.toList.all fun c => decide (c.toNat ≤ 127) && foldCase c != 'k'

/-- The word stands at the front of the input. -/
def Begins (w : String) (s : List Char) : Prop :=
  ∃ front rest, s = front ++ rest ∧ front.map foldCase = w.toList.map foldCase

theorem utf8Size_of_map_foldCase {w : String} (hw : isPlain w = true)
    (h : front.map foldCase = w.toList.map foldCase) : ∀ d ∈ front, d.utf8Size = 1 := by
  intro d hd
  have hmem : foldCase d ∈ w.toList.map foldCase := h ▸ List.mem_map_of_mem hd
  obtain ⟨c, hc, hcd⟩ := List.mem_map.1 hmem
  have hplain := List.all_eq_true.1 hw c hc
  rw [Bool.and_eq_true, decide_eq_true_eq, bne_iff_ne] at hplain
  exact utf8Size_of_foldCase hplain.1 hplain.2 hcd.symm

theorem utf8ByteSize_of_isPlain {w : String} (hw : isPlain w = true) :
    w.utf8ByteSize = w.toList.length := by
  have sum (l : List Char) (h : ∀ c ∈ l, c.utf8Size = 1) : String.utf8Len l = l.length := by
    induction l with
    | nil => rfl
    | cons c l ih =>
      obtain ⟨hc, hl⟩ := List.forall_mem_cons.1 h
      rw [String.utf8Len_cons, ih hl, hc, List.length_cons]
  rw [← String.ofList_toList (s := w), String.utf8ByteSize_ofList, String.toList_ofList]
  exact sum _ (utf8Size_of_map_foldCase hw rfl)

theorem splitBytes?_append (h : ∀ c ∈ front, c.utf8Size = 1) :
    Text.splitBytes? front.length (front ++ rest) = some (front, rest) := by
  induction front with
  | nil => rw [List.length_nil, Text.splitBytes?]; rfl
  | cons c front ih =>
    obtain ⟨hc, hfront⟩ := List.forall_mem_cons.1 h
    rw [List.length_cons, List.cons_append, Text.splitBytes?, hc, if_pos (by omega),
      Nat.add_sub_cancel, ih hfront]
    rfl

/-- There are not so many bytes. -/
theorem splitBytes?_of_length_lt {n : Nat} (hs : s.length < n) (h : ∀ c ∈ s, c.utf8Size = 1) :
    Text.splitBytes? n s = none := by
  induction s generalizing n with
  | nil =>
    obtain ⟨n, rfl⟩ := Nat.exists_eq_add_of_lt hs
    rw [Text.splitBytes?]
  | cons c s ih =>
    obtain ⟨hc, hs'⟩ := List.forall_mem_cons.1 h
    rw [List.length_cons] at hs
    obtain ⟨n, rfl⟩ := Nat.exists_eq_add_of_le' (Nat.lt_of_le_of_lt (Nat.zero_le _) hs)
    rw [Text.splitBytes?, hc, if_pos (by omega), Nat.add_sub_cancel, ih (by omega) hs']
    rfl

/-- Two texts that agree as far as both go: the shorter one is the front part of the other. -/
theorem agrees_iff {as bs : List Char} :
    agrees as bs = true ↔
      (as.take bs.length).map foldCase = (bs.take as.length).map foldCase := by
  induction as generalizing bs with
  | nil => simp [agrees]
  | cons a as ih =>
    cases bs with
    | nil => simp [agrees]
    | cons b bs => simp [agrees, ih]

theorem word_append {w : String} (hw : isPlain w = true)
    (h : front.map foldCase = w.toList.map foldCase) (rest : List Char) :
    word w (front ++ rest) = .accepted (String.ofList front) rest := by
  have hlength : front.length = w.toList.length := by
    rw [← List.length_map foldCase, h, List.length_map]
  have hagrees : agrees (front ++ rest) w.toList = true := by
    rw [agrees_iff, ← hlength, List.take_left, List.take_of_length_le, h]
    rw [List.length_append]
    omega
  rw [word, if_pos hagrees, utf8ByteSize_of_isPlain hw, ← hlength,
    splitBytes?_append (utf8Size_of_map_foldCase hw h)]

theorem word_of_not_begins {w : String} (hw : isPlain w = true) (h : ¬ Begins w s) :
    word w s = .refused s := by
  rw [word]
  split
  next hagrees =>
    rw [agrees_iff] at hagrees
    by_cases hlength : s.length < w.toList.length
    · -- the input ends inside the word
      rw [List.take_of_length_le (Nat.le_of_lt hlength)] at hagrees
      have hsize : ∀ c ∈ s, c.utf8Size = 1 := by
        intro d hd
        have hmem : foldCase d ∈ (w.toList.take s.length).map foldCase :=
          hagrees ▸ List.mem_map_of_mem hd
        obtain ⟨c, hc, hcd⟩ := List.mem_map.1 hmem
        have hplain := List.all_eq_true.1 hw c (List.mem_of_mem_take hc)
        rw [Bool.and_eq_true, decide_eq_true_eq, bne_iff_ne] at hplain
        exact utf8Size_of_foldCase hplain.1 hplain.2 hcd.symm
      rw [utf8ByteSize_of_isPlain hw, splitBytes?_of_length_lt hlength hsize]
    · refine absurd ⟨_, _, (List.take_append_drop w.toList.length s).symm, ?_⟩ h
      rw [hagrees, List.take_of_length_le (Nat.le_of_not_lt hlength)]
  next => rfl

theorem begins_of_word {w : String} (hw : isPlain w = true) {found : String}
    (h : word w s = .accepted found rest) :
    ∃ front, s = front ++ rest ∧ found = String.ofList front ∧
      front.map foldCase = w.toList.map foldCase := by
  by_cases hbegins : Begins w s
  · obtain ⟨front, rest', rfl, hfront⟩ := hbegins
    rw [word_append hw hfront] at h
    obtain ⟨rfl, rfl⟩ := Outcome.accepted.inj h
    exact ⟨front, rfl, rfl, hfront⟩
  · rw [word_of_not_begins hw hbegins] at h
    cases h

/-- No word stands where its first letter does not. -/
theorem not_begins_of_head {w : String} {d : Char} {more : List Char} (hw : w.toList = d :: more)
    (h : ∀ c ∈ s.head?, foldCase c ≠ foldCase d) : ¬ Begins w s := by
  rintro ⟨front, rest, rfl, hfront⟩
  rw [hw, List.map_cons] at hfront
  cases front with
  | nil => cases hfront
  | cons a front => exact h a rfl (List.cons.inj hfront).1

theorem word_of_head {w : String} {d : Char} {more : List Char} (hplain : isPlain w = true)
    (hw : w.toList = d :: more) (h : ∀ c ∈ s.head?, foldCase c ≠ foldCase d) :
    word w s = .refused s :=
  word_of_not_begins hplain (not_begins_of_head hw h)

/-! ## Keywords -/

theorem keyword_append {w : String} (hw : isPlain w = true) (hlead : IsBlank lead)
    (h : front.map foldCase = w.toList.map foldCase) (hdark : StartsDark (front ++ rest))
    (hrest : ∀ c ∈ rest.head?, ¬ c.isAlpha) :
    keyword w (lead ++ (front ++ rest)) = .accepted (String.ofList front) rest := by
  refine (after_blanks hlead hdark).trans (wholly_of_accepted ?_)
  refine (bind_of_accepted (word_append hw h rest)).trans ?_
  refine (bind_of_accepted (p := remaining) rfl).trans ?_
  cases rest with
  | nil => rfl
  | cons c rest =>
    change (if c.isAlpha then refuse else Pure.pure _) _ = _
    rw [if_neg (hrest c rfl)]
    rfl

/-- A keyword does not stand here where other characters do, or where its last letter is followed by
another one. -/
theorem not_accepts_keyword {w : String} (hw : isPlain w = true) (hlead : IsBlank lead)
    (hdark : StartsDark s)
    (h : ∀ front rest, s = front ++ rest → front.map foldCase = w.toList.map foldCase →
      ∃ c ∈ rest.head?, c.isAlpha) :
    accepts (keyword w) (lead ++ s) = false := by
  refine accepts_of_refused (t := s) ((after_blanks hlead hdark).trans ?_)
  by_cases hbegins : Begins w s
  · obtain ⟨front, rest, rfl, hfront⟩ := hbegins
    obtain ⟨c, hc, halpha⟩ := h front rest rfl hfront
    refine wholly_of_refused (t := rest) ?_
    refine (bind_of_accepted (word_append hw hfront rest)).trans ?_
    refine (bind_of_accepted (p := remaining) rfl).trans ?_
    cases rest with
    | nil => cases hc
    | cons d rest =>
      have hd : d.isAlpha = true := Option.some.inj hc ▸ halpha
      change (if d.isAlpha then refuse else Pure.pure _) _ = _
      rw [if_pos hd]
      rfl
  · exact wholly_of_refused (bind_of_refused (word_of_not_begins hw hbegins))

theorem keyword_of_head {w : String} {d : Char} {more : List Char} (hplain : isPlain w = true)
    (hw : w.toList = d :: more) (hdark : StartsDark s)
    (h : ∀ c ∈ s.head?, foldCase c ≠ foldCase d) : keyword w s = .refused s :=
  (after_blanks isBlank_nil hdark).trans
    (wholly_of_refused (bind_of_refused (word_of_head hplain hw h)))

theorem begins_of_keyword {w found : String} (hplain : isPlain w = true) (hlead : IsBlank lead)
    (hdark : StartsDark t) (h : keyword w (lead ++ t) = .accepted found rest) : Begins w t := by
  have hword : wholly _ t = .accepted found rest := (after_blanks hlead hdark).symm.trans h
  obtain ⟨_, after, hbegins, -⟩ := exists_of_bind (of_wholly hword)
  obtain ⟨front, rfl, -, hfront⟩ := begins_of_word hplain hbegins
  exact ⟨front, after, rfl, hfront⟩

/-! ## Marks -/

theorem exactly_append (sign rest : List Char) :
    exactly sign (sign ++ rest) = .accepted (String.ofList sign) rest := by
  rw [exactly, if_pos (List.isPrefixOf_iff_prefix.2 ⟨rest, rfl⟩), List.drop_left]

theorem symbol_append {sign : String} (hlead : IsBlank lead)
    (hdark : StartsDark (sign.toList ++ rest)) :
    symbol sign (lead ++ (sign.toList ++ rest)) = .accepted sign rest := by
  refine (after_blanks hlead hdark).trans ?_
  rw [exactly_append, String.ofList_toList]

theorem symbol_of_unlike {sign : String} (hlead : IsBlank lead) (hdark : StartsDark s)
    (h : ¬ sign.toList <+: s) : symbol sign (lead ++ s) = .refused s := by
  refine (after_blanks hlead hdark).trans ?_
  rw [exactly, if_neg (mt List.isPrefixOf_iff_prefix.1 h)]

end LineBasic.Grammar
