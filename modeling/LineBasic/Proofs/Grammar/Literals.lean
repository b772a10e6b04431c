import LineBasic.Grammar.Expression
import LineBasic.Proofs.Expr.Key
import LineBasic.Proofs.Grammar.Words

/-!
# Names and literals are read as they are spelled

A name or a literal that was read once is read again, as the same, wherever a blank, a comma or a
parenthesis follows it. For each of them there is the form that its text has, that what is read has
this form, and that a text of this form is read to its end.
-/

namespace LineBasic.Grammar

open LineBasic.Parser

variable {s w rest lead front : List Char}

/-- A blank, a comma or a parenthesis comes next, or nothing. -/
def EndsToken (s : List Char) : Prop := ∀ c ∈ s.head?, endsWord c

theorem endsWord_iff (c : Char) :
    endsWord c = true ↔ c.toNat = 32 ∨ c.toNat = 44 ∨ c.toNat = 40 ∨ c.toNat = 41 := by
  simp only [endsWord, Bool.or_eq_true, beq_iff_eq, eq_iff_toNat_eq, Char.reduceToNat]
  tauto

theorem EndsToken.not_class {class? : Char → Bool} (h : EndsToken s)
    (hclass : ∀ c, endsWord c → class? c = false) : ∀ c ∈ s.head?, ¬ class? c := by
  intro c hc hin
  rw [hclass c (h c hc)] at hin
  cases hin

/-! ## Names -/

/-- A character inside a name. -/
def isInner (c : Char) : Bool := c.isAlphanum || c == '.'

/-- A letter, then letters, digits and points, then perhaps a suffix. -/
inductive IsSpelled : List Char → Prop
  | mk {first : Char} {middle : List Char} {suffix : Option Char} : first.isAlpha →
    (∀ c ∈ middle, isInner c) → (∀ c ∈ suffix, (StorageType.ofSuffix? c).isSome) →
    IsSpelled (first :: middle ++ suffix.toList)

theorem isInner_iff (c : Char) : isInner c = true ↔ 65 ≤ c.toNat ∧ c.toNat ≤ 90 ∨
    97 ≤ c.toNat ∧ c.toNat ≤ 122 ∨ 48 ≤ c.toNat ∧ c.toNat ≤ 57 ∨ c.toNat = 46 := by
  simp only [isInner, Char.isAlphanum, Bool.or_eq_true, isAlpha_iff, isDigit_iff, beq_iff_eq,
    eq_iff_toNat_eq, Char.reduceToNat]
  tauto

theorem not_isInner_of_suffix {c : Char} (h : (StorageType.ofSuffix? c).isSome) :
    ¬ isInner c := by
  rw [StorageType.isSome_ofSuffix?_iff] at h
  rw [isInner_iff]
  omega

theorem not_isInner_of_endsWord {c : Char} (h : endsWord c) : isInner c = false := by
  rw [endsWord_iff] at h
  rw [← Bool.not_eq_true, isInner_iff]
  omega

theorem not_suffix_of_endsWord {c : Char} (h : endsWord c) :
    (StorageType.ofSuffix? c).isSome = false := by
  rw [endsWord_iff] at h
  rw [← Bool.not_eq_true, StorageType.isSome_ofSuffix?_iff]
  omega

theorem spelledName_append (h : IsSpelled w) (hrest : EndsToken rest) :
    spelledName (w ++ rest) = .accepted w rest := by
  obtain ⟨hfirst, hmiddle, hsuffix⟩ := h
  rename_i first middle suffix
  rw [List.append_assoc, List.cons_append]
  refine (bind_of_accepted (satisfy_cons hfirst)).trans ?_
  have hstop : ∀ c ∈ (suffix.toList ++ rest).head?, ¬ isInner c := by
    cases suffix with
    | none => exact hrest.not_class fun c => not_isInner_of_endsWord
    | some c =>
      rintro _ ⟨⟩
      exact not_isInner_of_suffix (hsuffix c rfl)
  refine (bind_of_accepted (takeWhile_append hmiddle hstop)).trans ?_
  cases suffix with
  | none =>
    have hnone := optional_of_refused
      (satisfy_of_head (hrest.not_class fun c => not_suffix_of_endsWord))
    exact (bind_of_accepted hnone).trans rfl
  | some c =>
    have hsome : satisfy (fun c => (StorageType.ofSuffix? c).isSome) (c :: rest) =
        .accepted c rest := satisfy_cons (hsuffix c rfl)
    exact (bind_of_accepted (optional_of_accepted hsome)).trans rfl

theorem of_spelledName (h : spelledName s = .accepted w rest) : s = w ++ rest ∧ IsSpelled w := by
  obtain ⟨first, s₁, h₁, h⟩ := exists_of_bind h
  obtain ⟨middle, s₂, h₂, h⟩ := exists_of_bind h
  obtain ⟨suffix, s₃, h₃, h⟩ := exists_of_bind h
  obtain ⟨rfl, rfl⟩ := Outcome.accepted.inj h
  obtain ⟨rfl, hfirst⟩ := of_satisfy h₁
  obtain ⟨rfl, hmiddle, -⟩ := of_takeWhile h₂
  rcases of_optional h₃ with ⟨c, rfl, hc⟩ | ⟨rfl, rfl, -⟩
  · obtain ⟨rfl, hsuffix⟩ := of_satisfy hc
    refine ⟨by simp, .mk hfirst hmiddle ?_⟩
    rintro _ ⟨⟩
    exact hsuffix
  · refine ⟨by simp, .mk hfirst hmiddle ?_⟩
    rintro _ ⟨⟩

/-- A name begins with a letter. -/
theorem IsSpelled.exists_eq_cons (h : IsSpelled w) : ∃ c more, w = c :: more ∧ c.isAlpha := by
  obtain ⟨hfirst, -, -⟩ := h
  exact ⟨_, _, rfl, hfirst⟩

theorem not_isBlank_of_isAlpha {c : Char} (h : c.isAlpha) : ¬ Text.isBlank c := by
  rw [isAlpha_iff] at h
  rw [Text.isBlank_iff]
  omega

theorem IsSpelled.startsDark (h : IsSpelled w) (rest : List Char) : StartsDark (w ++ rest) := by
  obtain ⟨c, more, rfl, hc⟩ := h.exists_eq_cons
  exact startsDark_cons (not_isBlank_of_isAlpha hc)

/-- Capital letters make no difference. -/
theorem IsSpelled.map_toUpper (h : IsSpelled w) : IsSpelled (w.map Char.toUpper) := by
  obtain ⟨hfirst, hmiddle, hsuffix⟩ := h
  rename_i first middle suffix
  have key : (first :: middle ++ suffix.toList).map Char.toUpper =
      first.toUpper :: middle.map Char.toUpper ++ (suffix.map Char.toUpper).toList := by
    cases suffix <;> simp
  rw [key]
  refine .mk ?_ ?_ ?_
  · rw [isAlpha_toUpper]
    exact hfirst
  · intro c hc
    obtain ⟨d, hd, rfl⟩ := List.mem_map.1 hc
    have hinner := hmiddle d hd
    rw [isInner_iff] at hinner ⊢
    rw [toNat_toUpper]
    split <;> omega
  · intro c hc
    obtain ⟨d, hd, rfl⟩ := Option.map_eq_some_iff.1 hc
    have hsome := hsuffix d hd
    rw [StorageType.isSome_ofSuffix?_iff] at hsome ⊢
    rw [toNat_toUpper]
    split <;> omega

/-! ### Variables -/

/-- The name of a variable that is no intrinsic function. -/
structure IsPlainName (n : Name) : Prop where
  spelled : IsSpelled n.text.toList
  admitted : isVariableName n
  notIntrinsic : Intrinsic.ofName? n.key = none

theorem variableName_append {n : Name} (hspelled : IsSpelled n.text.toList)
    (hadmitted : isVariableName n) (hlead : IsBlank lead) (hrest : EndsToken rest) :
    variableName (lead ++ (n.text.toList ++ rest)) = .accepted n rest := by
  refine (after_blanks hlead (hspelled.startsDark rest)).trans (wholly_of_accepted ?_)
  refine (bind_of_accepted (spelledName_append hspelled hrest)).trans ?_
  simp only [String.ofList_toList]
  rw [if_pos hadmitted]
  rfl

theorem isSpelled_name (f : Intrinsic) : IsSpelled f.name.toList := by
  have haccepted : spelledName f.name.toList = .accepted f.name.toList [] := by cases f <;> rfl
  exact (of_spelledName haccepted).2

theorem upper_name (f : Intrinsic) : Text.upper f.name = f.name := by
  have hcapital : f.name.toList.map Char.toUpper = f.name.toList := by cases f <;> decide
  rw [← String.toList_inj, Text.upper, String.toList_map, hcapital]

theorem intrinsicName_append (f : Intrinsic) (hlead : IsBlank lead) (hrest : EndsToken rest) :
    intrinsicName (lead ++ (f.name.toList ++ rest)) = .accepted f rest := by
  have hspelled := isSpelled_name f
  have hupper := upper_name f
  refine (after_blanks hlead (hspelled.startsDark rest)).trans (wholly_of_accepted ?_)
  refine (bind_of_accepted (spelledName_append hspelled hrest)).trans ?_
  rw [String.ofList_toList, hupper, f.ofName?_name]
  rfl

theorem intrinsicName_of_plain {n : Name} (h : IsPlainName n) (hlead : IsBlank lead)
    (hrest : EndsToken rest) :
    intrinsicName (lead ++ (n.text.toList ++ rest)) = .refused (n.text.toList ++ rest) := by
  refine (after_blanks hlead (h.spelled.startsDark rest)).trans (wholly_of_refused (t := rest) ?_)
  refine (bind_of_accepted (spelledName_append h.spelled hrest)).trans ?_
  have hnone : Intrinsic.ofName? (Text.upper (String.ofList n.text.toList)) = none := by
    rw [String.ofList_toList]
    exact h.notIntrinsic
  rw [hnone]
  rfl

/-- A variable that is read where no intrinsic function stands. -/
theorem isPlainName_of_variableName {n : Name} (h : variableName s = .accepted n rest)
    (hno : accepts intrinsicName s = false) : IsPlainName n := by
  obtain ⟨blank, dark, hblank, h⟩ := exists_of_bind h
  obtain ⟨w, t, hw, h⟩ := exists_of_bind (of_wholly h)
  dsimp only at h
  split at h
  next hadmitted =>
    obtain ⟨rfl, rfl⟩ := Outcome.accepted.inj h
    refine ⟨?_, hadmitted, ?_⟩
    · rw [String.toList_ofList]
      exact (of_spelledName hw).2
    · rw [← Option.not_isSome_iff_eq_none, Option.isSome_iff_exists]
      rintro ⟨f, hf⟩
      have haccepted : intrinsicName s = .accepted f t := by
        refine (bind_of_accepted hblank).trans (wholly_of_accepted ?_)
        refine (bind_of_accepted hw).trans ?_
        have hfound : Intrinsic.ofName? (Text.upper (String.ofList w)) = some f := hf
        rw [hfound]
        rfl
      rw [accepts_of_accepted haccepted] at hno
      cases hno
  next => cases h

/-! ### User functions -/

theorem isPlain_fn : isPlain "FN" = true := by decide

/-- The word `FN` and a name. -/
def IsFunctionName (n : Name) : Prop :=
  ∃ fn w, n.text.toList = fn ++ w ∧ fn.map foldCase = "FN".toList.map foldCase ∧ IsSpelled w

theorem IsFunctionName.exists_eq_cons {n : Name} (h : IsFunctionName n) :
    ∃ c more, n.text.toList = c :: more ∧ c.isAlpha ∧ foldCase c = 'f' := by
  obtain ⟨fn, w, htext, hfn, -⟩ := h
  cases fn with
  | nil => cases hfn
  | cons c fn =>
    have hc : foldCase c = 'f' := (List.cons.inj hfn).1
    refine ⟨c, fn ++ w, htext, ?_, hc⟩
    rw [foldCase_eq_toLower (by rw [hc]; decide), eq_iff_toNat_eq, toNat_toLower] at hc
    rw [isAlpha_iff]
    have hf : 'f'.toNat = 102 := rfl
    split at hc <;> omega

theorem functionName_append {n : Name} (h : IsFunctionName n) (hlead : IsBlank lead)
    (hrest : EndsToken rest) :
    functionName (lead ++ (n.text.toList ++ rest)) = .accepted n rest := by
  obtain ⟨c, more, hc, hletter, -⟩ := h.exists_eq_cons
  have hdark : StartsDark (n.text.toList ++ rest) := by
    rw [hc]
    exact startsDark_cons (not_isBlank_of_isAlpha hletter)
  obtain ⟨fn, w, htext, hfn, hw⟩ := h
  refine (after_blanks hlead hdark).trans ?_
  rw [htext, List.append_assoc]
  refine (bind_of_accepted (word_append isPlain_fn hfn _)).trans ?_
  refine (after_blanks isBlank_nil (hw.startsDark rest)).trans ?_
  refine (bind_of_accepted (spelledName_append hw hrest)).trans ?_
  have htext' : String.ofList fn ++ String.ofList w = n.text := by
    rw [← String.ofList_append, ← htext, String.ofList_toList]
  rw [htext']
  rfl

theorem isFunctionName_of_functionName {n : Name} (h : functionName s = .accepted n rest) :
    IsFunctionName n := by
  obtain ⟨-, s₁, -, h⟩ := exists_of_bind h
  obtain ⟨fn, s₂, hfn, h⟩ := exists_of_bind h
  obtain ⟨-, s₃, -, h⟩ := exists_of_bind h
  obtain ⟨w, s₄, hw, h⟩ := exists_of_bind h
  obtain ⟨rfl, rfl⟩ := Outcome.accepted.inj h
  obtain ⟨front, -, rfl, hfront⟩ := begins_of_word isPlain_fn hfn
  refine ⟨front, w, ?_, hfront, (of_spelledName hw).2⟩
  simp

/-- A front part that ends with its token is not continued to a word. -/
theorem exists_prefix_of_begins {word : String} (hletters : word.toList.all Char.isAlpha = true)
    (hplain : isPlain word = true) (hrest : EndsToken rest) (h : Begins word (w ++ rest)) :
    ∃ front more, w = front ++ more ∧ front.map foldCase = word.toList.map foldCase := by
  obtain ⟨front, behind, hs, hfront⟩ := h
  rcases List.append_eq_append_iff.1 hs with ⟨mid, rfl, hmid⟩ | ⟨mid, rfl, -⟩
  · cases mid with
    | nil => exact ⟨w, [], by simp, by simpa using hfront⟩
    | cons c mid =>
      -- the character after the token would be a letter of the word
      have hmem : foldCase c ∈ word.toList.map foldCase := by
        rw [← hfront]
        exact List.mem_map_of_mem (List.mem_append_right _ List.mem_cons_self)
      obtain ⟨d, hd, hdc⟩ := List.mem_map.1 hmem
      have hend : endsWord c := hrest c (by rw [hmid]; rfl)
      have halpha := List.all_eq_true.1 hletters d hd
      have hdplain := List.all_eq_true.1 hplain d hd
      rw [Bool.and_eq_true, bne_iff_ne] at hdplain
      have hck : foldCase c ≠ 'k' := hdc ▸ hdplain.2
      rw [foldCase_eq_toLower hdplain.2, foldCase_eq_toLower hck, eq_iff_toNat_eq, toNat_toLower,
        toNat_toLower] at hdc
      rw [endsWord_iff] at hend
      rw [isAlpha_iff] at halpha
      split at hdc <;> split at hdc <;> omega
  · exact ⟨front, mid, rfl, hfront⟩

theorem map_toUpper_of_foldCase {word : String} (hplain : isPlain word = true)
    (h : front.map foldCase = word.toList.map foldCase) :
    front.map Char.toUpper = word.toList.map Char.toUpper := by
  have plain : ∀ c ∈ word.toList, foldCase c ≠ 'k' := by
    intro c hc
    have hdplain := List.all_eq_true.1 hplain c hc
    rw [Bool.and_eq_true, bne_iff_ne] at hdplain
    exact hdplain.2
  generalize word.toList = l at h plain
  induction l generalizing front with
  | nil => rw [List.map_eq_nil_iff.1 h]
  | cons c l ih =>
    cases front with
    | nil => cases h
    | cons d front =>
      obtain ⟨hc, hl⟩ := List.forall_mem_cons.1 plain
      obtain ⟨hdc, hrest⟩ := List.cons.inj h
      rw [List.map_cons, List.map_cons, toUpper_of_foldCase hc hdc, ih hrest hl]

/-- The key of a name that begins with a word begins with its capital letters. -/
theorem prefix_key_of_begins {word : String} (hletters : word.toList.all Char.isAlpha = true)
    (hplain : isPlain word = true) {n : Name} (hrest : EndsToken rest)
    (h : Begins word (n.text.toList ++ rest)) : word.toList.map Char.toUpper <+: n.key.toList := by
  obtain ⟨front, more, hn, hfront⟩ := exists_prefix_of_begins hletters hplain hrest h
  refine ⟨more.map Char.toUpper, ?_⟩
  rw [Name.key, Text.upper, String.toList_map, hn, List.map_append,
    map_toUpper_of_foldCase hplain hfront]

theorem functionName_of_not_begins (hlead : IsBlank lead) (hdark : StartsDark s)
    (h : ¬ Begins "FN" s) : functionName (lead ++ s) = .refused s :=
  (after_blanks hlead hdark).trans (bind_of_refused (word_of_not_begins isPlain_fn h))

/-! ## Strings -/

theorem quoted_append {body : String} (h : '"' ∉ body.toList) (hlead : IsBlank lead) :
    quoted (lead ++ ('"' :: (body.toList ++ '"' :: rest))) = .accepted body rest := by
  refine (after_blanks hlead (startsDark_cons (by decide))).trans ?_
  refine (bind_of_accepted (satisfy_cons (by decide))).trans ?_
  have hbody : ∀ c ∈ body.toList, (c != '"') = true := by
    intro c hc
    rw [bne_iff_ne]
    rintro rfl
    exact h hc
  refine (bind_of_accepted (takeWhile_append hbody ?_)).trans ?_
  · rintro _ ⟨⟩
    decide
  · refine (bind_of_accepted (optional_of_accepted (satisfy_cons (by decide)))).trans ?_
    rw [String.ofList_toList]
    rfl

theorem not_mem_of_quoted {body : String} (h : quoted s = .accepted body rest) :
    '"' ∉ body.toList := by
  obtain ⟨-, s₁, -, h⟩ := exists_of_bind h
  obtain ⟨-, s₂, -, h⟩ := exists_of_bind h
  obtain ⟨inside, s₃, hinside, h⟩ := exists_of_bind h
  obtain ⟨-, s₄, -, h⟩ := exists_of_bind h
  obtain ⟨rfl, -⟩ := Outcome.accepted.inj h
  obtain ⟨-, hall, -⟩ := of_takeWhile hinside
  rw [String.toList_ofList]
  intro hmem
  exact absurd (hall _ hmem) (by decide)

theorem quoted_of_head (hlead : IsBlank lead) (hdark : StartsDark s) (h : ∀ c ∈ s.head?, c ≠ '"') :
    quoted (lead ++ s) = .refused s := by
  refine (after_blanks hlead hdark).trans (bind_of_refused (satisfy_of_head fun c hc heq => ?_))
  exact h c hc (eq_of_beq heq)

end LineBasic.Grammar
