import LineBasic.Proofs.Grammar.Literals

/-!
# Numbers are read as they are spelled

A number in base 16, or a decimal: digits with a point among them, a power of ten, and the suffix
of a type. A text of this form is read to its end, with the value that the form gives it
(`Grammar.number_append`), and everything that is read as a number has this form
(`Grammar.isNumberText_of_number`).
-/

namespace LineBasic.Grammar

open LineBasic.Parser

variable {s w rest lead front back : List Char} {e : Int}

/-- Digits before and after the point, which is left out only if there is none after it. -/
inductive IsMantissa : List Char → List Char → List Char → Prop
  | whole {front : List Char} : front ≠ [] → (∀ c ∈ front, c.isDigit) → IsMantissa front front []
  | pointed {front back : List Char} : front ≠ [] → (∀ c ∈ front, c.isDigit) →
    (∀ c ∈ back, c.isDigit) → IsMantissa (front ++ '.' :: back) front back
  | fraction {back : List Char} : back ≠ [] → (∀ c ∈ back, c.isDigit) →
    IsMantissa ('.' :: back) [] back

/-- Nothing, or a power of ten. -/
inductive IsExponent : List Char → Int → Prop
  | none : IsExponent [] 0
  | power {mark : Char} {sign : Option Char} {digits : List Char} : (mark == 'e' || mark == 'E') →
    (∀ c ∈ sign, (c == '+' || c == '-') = true) → digits ≠ [] → (∀ c ∈ digits, c.isDigit) →
    IsExponent (mark :: (sign.toList ++ digits))
      (if sign = some '-' then -(Text.ofDecimal digits : Int) else Text.ofDecimal digits)

/-- A number and the text that it is read from. -/
inductive IsNumberText : List Char → Float → Prop
  | hexadecimal {mark digits : List Char} : mark.map foldCase = "&H".toList.map foldCase →
    digits ≠ [] → (∀ c ∈ digits, Text.isHexDigit c) →
    IsNumberText (mark ++ digits) (Float.ofNat
      (if Text.ofHexadecimal digits < 9223372036854775808 then Text.ofHexadecimal digits else 0))
  | decimal {m front back x : List Char} {e : Int} {suffix : Option Char} :
    IsMantissa m front back → IsExponent x e →
    (∀ c ∈ suffix, (StorageType.ofSuffix? c).any StorageType.isNumeric) →
    IsNumberText (m ++ (x ++ suffix.toList))
      (Decimal.toFloat ⟨Text.ofDecimal (front ++ back), e - back.length⟩)

/-! ## Characters -/

theorem isSuffix_of_isNumeric {c : Char}
    (h : (StorageType.ofSuffix? c).any StorageType.isNumeric = true) :
    (StorageType.ofSuffix? c).isSome = true := by
  obtain ⟨t, ht, -⟩ := (Option.any_eq_true ..).1 h
  rw [ht]
  rfl

/-- What follows the digits of a number: a power of ten, a suffix or the end of the token. -/
def EndsDigits (s : List Char) : Prop := ∀ c ∈ s.head?, ¬ c.isDigit ∧ c ≠ '.'

theorem EndsToken.endsDigits (h : EndsToken s) : EndsDigits s := by
  intro c hc
  have hend := h c hc
  rw [endsWord_iff] at hend
  rw [isDigit_iff, Ne, eq_iff_toNat_eq]
  have hpoint : '.'.toNat = 46 := rfl
  omega

/-- What follows the power of ten. -/
theorem endsDigits_suffix {suffix : Option Char}
    (hsuffix : ∀ c ∈ suffix, (StorageType.ofSuffix? c).any StorageType.isNumeric)
    (hrest : EndsToken rest) : EndsDigits (suffix.toList ++ rest) := by
  cases suffix with
  | none => exact hrest.endsDigits
  | some c =>
    rintro _ ⟨⟩
    have hsome := isSuffix_of_isNumeric (hsuffix c rfl)
    rw [StorageType.isSome_ofSuffix?_iff] at hsome
    rw [isDigit_iff, Ne, eq_iff_toNat_eq]
    have hpoint : '.'.toNat = 46 := rfl
    omega

theorem isMark_iff (c : Char) : (c == 'e' || c == 'E') = true ↔ c.toNat = 101 ∨ c.toNat = 69 := by
  rw [Bool.or_eq_true, beq_iff_eq, beq_iff_eq, eq_iff_toNat_eq, eq_iff_toNat_eq]
  rfl

theorem not_isMark_suffix {suffix : Option Char}
    (hsuffix : ∀ c ∈ suffix, (StorageType.ofSuffix? c).any StorageType.isNumeric)
    (hrest : EndsToken rest) :
    ∀ c ∈ (suffix.toList ++ rest).head?, ¬ (c == 'e' || c == 'E') = true := by
  intro c hc
  rw [isMark_iff]
  cases suffix with
  | none =>
    have hend := hrest c hc
    rw [endsWord_iff] at hend
    omega
  | some d =>
    have hsome := isSuffix_of_isNumeric (hsuffix c hc)
    rw [StorageType.isSome_ofSuffix?_iff] at hsome
    omega

theorem IsExponent.endsDigits (h : IsExponent w e) (hs : EndsDigits s) : EndsDigits (w ++ s) := by
  cases h with
  | none => exact hs
  | power hmark _ _ _ =>
    rintro _ ⟨⟩
    rw [isMark_iff] at hmark
    rw [isDigit_iff, Ne, eq_iff_toNat_eq]
    have hpoint : '.'.toNat = 46 := rfl
    omega

theorem EndsDigits.not_digit (h : EndsDigits s) : ∀ c ∈ s.head?, ¬ c.isDigit = true :=
  fun c hc => (h c hc).1

theorem EndsDigits.not_point (h : EndsDigits s) : ∀ c ∈ s.head?, ¬ (c == '.') = true :=
  fun c hc heq => (h c hc).2 (eq_of_beq heq)

/-! ## Parts of decimals -/

theorem IsMantissa.exists_eq_cons (h : IsMantissa w front back) :
    ∃ c more, w = c :: more ∧ (c.isDigit ∨ c = '.') := by
  have digit {l : List Char} (hne : l ≠ []) (hdigits : ∀ c ∈ l, c.isDigit) :
      ∃ c more, l = c :: more ∧ c.isDigit := by
    obtain ⟨c, more, rfl⟩ := List.exists_cons_of_ne_nil hne
    exact ⟨c, more, rfl, hdigits c List.mem_cons_self⟩
  cases h with
  | whole hne hdigits =>
    obtain ⟨c, more, rfl, hc⟩ := digit hne hdigits
    exact ⟨c, more, rfl, .inl hc⟩
  | pointed hne hdigits =>
    obtain ⟨c, more, rfl, hc⟩ := digit hne hdigits
    exact ⟨c, _, rfl, .inl hc⟩
  | fraction => exact ⟨'.', _, rfl, .inr rfl⟩

theorem mantissa_append (h : IsMantissa w front back) (hrest : EndsDigits rest) :
    mantissa (w ++ rest) = .accepted (front, back) rest := by
  cases h with
  | whole hne hdigits =>
    have hfront := optional_of_accepted (takeWhile1_append hne hdigits hrest.not_digit)
    have hpoint := optional_of_refused (satisfy_of_head hrest.not_point)
    exact (bind_of_accepted hfront).trans ((bind_of_accepted hpoint).trans rfl)
  | @pointed front back hne hfront hback =>
    rw [List.append_assoc, List.cons_append]
    have hstop : ∀ c ∈ ('.' :: (back ++ rest)).head?, ¬ c.isDigit = true := by
      rintro _ ⟨⟩
      decide
    have hread := optional_of_accepted (takeWhile1_append hne hfront hstop)
    refine (bind_of_accepted hread).trans ?_
    refine (bind_of_accepted (optional_of_accepted (satisfy_cons (by decide)))).trans ?_
    exact (bind_of_accepted (takeWhile_append hback hrest.not_digit)).trans rfl
  | fraction hne hback =>
    have hstop : ∀ c ∈ ('.' :: (back ++ rest)).head?, ¬ c.isDigit = true := by
      rintro _ ⟨⟩
      decide
    refine (bind_of_accepted (optional_of_refused (takeWhile1_of_head hstop))).trans ?_
    refine (bind_of_accepted (satisfy_cons (by decide))).trans ?_
    exact (bind_of_accepted (takeWhile1_append hne hback hrest.not_digit)).trans rfl

theorem isMantissa_of_mantissa (h : mantissa s = .accepted (front, back) rest) :
    ∃ w, s = w ++ rest ∧ IsMantissa w front back := by
  obtain ⟨found, s₁, hfound, hthen⟩ := exists_of_bind h
  rcases of_optional hfound with ⟨digits, rfl, hdigits⟩ | ⟨rfl, rfl, -⟩
  · obtain ⟨rfl, hne, hall, -⟩ := of_takeWhile1 hdigits
    dsimp only at hthen
    obtain ⟨point, s₂, hpoint, hend⟩ := exists_of_bind hthen
    rcases of_optional hpoint with ⟨c, rfl, hc⟩ | ⟨rfl, rfl, -⟩
    · obtain ⟨rfl, hdot⟩ := of_satisfy hc
      obtain ⟨tail, s₃, htail, hpair⟩ := exists_of_bind hend
      obtain ⟨heq, rfl⟩ := Outcome.accepted.inj hpair
      obtain ⟨rfl, rfl⟩ := Prod.mk.inj heq
      obtain ⟨rfl, hback, -⟩ := of_takeWhile htail
      obtain rfl := eq_of_beq hdot
      exact ⟨_, by simp, .pointed hne hall hback⟩
    · obtain ⟨heq, rfl⟩ := Outcome.accepted.inj hend
      obtain ⟨rfl, rfl⟩ := Prod.mk.inj heq
      exact ⟨_, rfl, .whole hne hall⟩
  · dsimp only at hthen
    obtain ⟨c, s₂, hc, hend⟩ := exists_of_bind hthen
    obtain ⟨rfl, hdot⟩ := of_satisfy hc
    obtain ⟨tail, s₃, htail, hpair⟩ := exists_of_bind hend
    obtain ⟨heq, rfl⟩ := Outcome.accepted.inj hpair
    obtain ⟨rfl, rfl⟩ := Prod.mk.inj heq
    obtain ⟨rfl, hne, hback, -⟩ := of_takeWhile1 htail
    obtain rfl := eq_of_beq hdot
    exact ⟨_, rfl, .fraction hne hback⟩

/-- What the optional power of ten is read as. -/
theorem optional_exponentPart_append (h : IsExponent w e) (hrest : EndsDigits rest)
    (hmark : ∀ c ∈ rest.head?, ¬ (c == 'e' || c == 'E') = true) :
    ∃ found, optional exponentPart (w ++ rest) = .accepted found rest ∧ found.getD 0 = e := by
  cases h with
  | none =>
    exact ⟨none, optional_of_refused (bind_of_refused (satisfy_of_head hmark)), rfl⟩
  | @power mark sign digits hmark hsign hne hdigits =>
    refine ⟨_, optional_of_accepted ?_, rfl⟩
    rw [List.cons_append, List.append_assoc]
    refine (bind_of_accepted (satisfy_cons hmark)).trans ?_
    have hsign : optional (satisfy fun c => c == '+' || c == '-')
        (sign.toList ++ (digits ++ rest)) = .accepted sign (digits ++ rest) := by
      cases sign with
      | some c => exact optional_of_accepted (satisfy_cons (hsign c rfl))
      | none =>
        refine optional_of_refused (satisfy_of_head fun c hc hsign => ?_)
        obtain ⟨d, digits, rfl⟩ := List.exists_cons_of_ne_nil hne
        obtain rfl := Option.some.inj hc
        have hdigit := hdigits d List.mem_cons_self
        simp only [Bool.or_eq_true, beq_iff_eq] at hsign
        rcases hsign with rfl | rfl <;> exact absurd hdigit (by decide)
    refine (bind_of_accepted hsign).trans ?_
    have hread : committed (takeWhile1 Char.isDigit) (digits ++ rest) = .accepted digits rest := by
      rw [committed, takeWhile1_append hne hdigits hrest.not_digit]
    exact (bind_of_accepted hread).trans rfl

theorem isExponent_of_exponentPart (h : exponentPart s = .accepted e rest) :
    ∃ w, s = w ++ rest ∧ IsExponent w e := by
  obtain ⟨mark, s₁, hmark, h₁⟩ := exists_of_bind h
  obtain ⟨sign, s₂, hsign, h₂⟩ := exists_of_bind h₁
  obtain ⟨digits, s₃, hdigits, h₃⟩ := exists_of_bind h₂
  obtain ⟨rfl, rfl⟩ := Outcome.accepted.inj h₃
  obtain ⟨rfl, hletter⟩ := of_satisfy hmark
  have hread : takeWhile1 Char.isDigit s₂ = .accepted digits s₃ := by
    rw [committed] at hdigits
    split at hdigits
    · cases hdigits
    · exact hdigits
  obtain ⟨rfl, hne, hall, -⟩ := of_takeWhile1 hread
  rcases of_optional hsign with ⟨c, rfl, hc⟩ | ⟨rfl, rfl, -⟩
  · obtain ⟨rfl, hplus⟩ := of_satisfy hc
    have hsome : ∀ d ∈ some c, (d == '+' || d == '-') = true := by
      rintro _ ⟨⟩
      exact hplus
    exact ⟨_, by simp, .power hletter hsome hne hall⟩
  · have hsign : ∀ c ∈ (none : Option Char), (c == '+' || c == '-') = true := by rintro _ ⟨⟩
    exact ⟨mark :: ((none : Option Char).toList ++ digits), rfl, .power hletter hsign hne hall⟩

/-! ## Numbers -/

theorem isPlain_mark : isPlain "&H" = true := by decide

/-- Only `&` itself is read as `&`. -/
theorem eq_of_foldCase_and {c : Char} (h : foldCase c = '&') : c = '&' := by
  rw [foldCase_eq_toLower (by rw [h]; decide), eq_iff_toNat_eq, toNat_toLower] at h
  rw [eq_iff_toNat_eq]
  have hand : '&'.toNat = 38 := rfl
  split at h <;> omega

/-- How numbers begin. -/
theorem IsNumberText.exists_eq_cons {x : Float} (h : IsNumberText w x) :
    ∃ c more, w = c :: more ∧ (c.isDigit ∨ c = '.' ∨ c = '&') := by
  cases h with
  | @hexadecimal mark digits hmark _ _ =>
    cases mark with
    | nil => cases hmark
    | cons c mark =>
      exact ⟨c, mark ++ digits, rfl, .inr (.inr (eq_of_foldCase_and (List.cons.inj hmark).1))⟩
  | decimal hmantissa _ _ =>
    obtain ⟨c, more, rfl, hc⟩ := hmantissa.exists_eq_cons
    exact ⟨c, _, rfl, hc.imp_right .inl⟩

theorem IsNumberText.startsDark {x : Float} (h : IsNumberText w x) (rest : List Char) :
    StartsDark (w ++ rest) := by
  obtain ⟨c, more, rfl, hc⟩ := h.exists_eq_cons
  refine startsDark_cons ?_
  rw [Text.isBlank_iff]
  rw [isDigit_iff, eq_iff_toNat_eq, eq_iff_toNat_eq] at hc
  have hpoint : '.'.toNat = 46 := rfl
  have hand : '&'.toNat = 38 := rfl
  omega

/-- Without an `&`, there is no number in base 16. -/
theorem attempt_hexadecimal_of_head (h : ∀ c ∈ s.head?, foldCase c ≠ '&') :
    attempt hexadecimal s = .accepted none s := by
  have hword : ¬ Begins "&H" s := not_begins_of_head (show "&H".toList = '&' :: ['H'] from rfl) h
  exact attempt_of_not_accepts
    (accepts_of_refused (bind_of_refused (word_of_not_begins isPlain_mark hword)))

theorem hexadecimal_append {mark digits : List Char}
    (hmark : mark.map foldCase = "&H".toList.map foldCase) (hne : digits ≠ [])
    (hdigits : ∀ c ∈ digits, Text.isHexDigit c) (hrest : EndsToken rest) :
    hexadecimal (mark ++ digits ++ rest) = .accepted
      (if Text.ofHexadecimal digits < 9223372036854775808 then Text.ofHexadecimal digits else 0)
      rest := by
  have hstop : ∀ c ∈ rest.head?, ¬ Text.isHexDigit c = true := by
    intro c hc hhex
    have hend := hrest c hc
    simp only [endsWord, Bool.or_eq_true, beq_iff_eq] at hend
    rcases hend with ((rfl | rfl) | rfl) | rfl <;> exact absurd hhex (by decide)
  rw [List.append_assoc]
  refine (bind_of_accepted (word_append isPlain_mark hmark _)).trans ?_
  exact (bind_of_accepted (takeWhile1_append hne hdigits hstop)).trans rfl

theorem exists_of_hexadecimal {n : Nat} (h : hexadecimal s = .accepted n rest) :
    ∃ mark digits, s = mark ++ digits ++ rest ∧ IsNumberText (mark ++ digits) (Float.ofNat n) := by
  obtain ⟨mark, s₁, hmark, h₁⟩ := exists_of_bind h
  obtain ⟨digits, s₂, hdigits, h₂⟩ := exists_of_bind h₁
  obtain ⟨rfl, rfl⟩ := Outcome.accepted.inj h₂
  obtain ⟨front, rfl, -, hfront⟩ := begins_of_word isPlain_mark hmark
  obtain ⟨rfl, hne, hall, -⟩ := of_takeWhile1 hdigits
  exact ⟨front, digits, (List.append_assoc ..).symm, .hexadecimal hfront hne hall⟩

theorem optional_suffix_append {suffix : Option Char}
    (hsuffix : ∀ c ∈ suffix, (StorageType.ofSuffix? c).any StorageType.isNumeric)
    (hrest : EndsToken rest) :
    optional (satisfy fun c => (StorageType.ofSuffix? c).any StorageType.isNumeric)
      (suffix.toList ++ rest) = .accepted suffix rest := by
  cases suffix with
  | some c =>
    have hsome : satisfy (fun c => (StorageType.ofSuffix? c).any StorageType.isNumeric)
        (c :: rest) = .accepted c rest := satisfy_cons (hsuffix c rfl)
    exact optional_of_accepted hsome
  | none =>
    refine optional_of_refused (satisfy_of_head fun c hc hsome => ?_)
    have hno := not_suffix_of_endsWord (hrest c hc)
    rw [isSuffix_of_isNumeric hsome] at hno
    cases hno

theorem of_optional_suffix {suffix : Option Char}
    (h : optional (satisfy fun c => (StorageType.ofSuffix? c).any StorageType.isNumeric) s =
      .accepted suffix rest) :
    s = suffix.toList ++ rest ∧
      ∀ c ∈ suffix, (StorageType.ofSuffix? c).any StorageType.isNumeric := by
  rcases of_optional h with ⟨c, rfl, hc⟩ | ⟨rfl, rfl, -⟩
  · obtain ⟨rfl, hnumeric⟩ := of_satisfy hc
    refine ⟨rfl, ?_⟩
    rintro _ ⟨⟩
    exact hnumeric
  · refine ⟨rfl, ?_⟩
    rintro _ ⟨⟩

theorem decimal_append {m x : List Char} {suffix : Option Char} (hm : IsMantissa m front back)
    (hx : IsExponent x e)
    (hsuffix : ∀ c ∈ suffix, (StorageType.ofSuffix? c).any StorageType.isNumeric)
    (hrest : EndsToken rest) :
    decimal (m ++ (x ++ (suffix.toList ++ rest))) = .accepted
      ⟨Text.ofDecimal (front ++ back), e - back.length⟩ rest := by
  have hend := endsDigits_suffix hsuffix hrest
  obtain ⟨found, hpower, rfl⟩ :=
    optional_exponentPart_append hx hend (not_isMark_suffix hsuffix hrest)
  refine (bind_of_accepted (mantissa_append hm (hx.endsDigits hend))).trans ?_
  refine (bind_of_accepted hpower).trans ?_
  exact (bind_of_accepted (optional_suffix_append hsuffix hrest)).trans rfl

theorem exists_of_decimal {d : Decimal} (h : decimal s = .accepted d rest) :
    ∃ w, s = w ++ rest ∧ IsNumberText w d.toFloat := by
  obtain ⟨⟨front, back⟩, s₁, hmantissa, h₁⟩ := exists_of_bind h
  obtain ⟨power, s₂, hpower, h₂⟩ := exists_of_bind h₁
  obtain ⟨suffix, s₃, hsuffix, h₃⟩ := exists_of_bind h₂
  obtain ⟨rfl, rfl⟩ := Outcome.accepted.inj h₃
  obtain ⟨m, rfl, hm⟩ := isMantissa_of_mantissa hmantissa
  obtain ⟨x, rfl, hx⟩ : ∃ x, s₁ = x ++ s₂ ∧ IsExponent x (power.getD 0) := by
    rcases of_optional hpower with ⟨e, rfl, he⟩ | ⟨rfl, rfl, -⟩
    · exact isExponent_of_exponentPart he
    · exact ⟨[], rfl, .none⟩
  obtain ⟨rfl, hlast⟩ := of_optional_suffix hsuffix
  refine ⟨m ++ (x ++ suffix.toList), ?_, .decimal hm hx hlast⟩
  rw [List.append_assoc, List.append_assoc]

/-- What was read is what is missing from the rest. -/
theorem ofList_take_append (w rest : List Char) :
    String.ofList ((w ++ rest).take ((w ++ rest).length - rest.length)) = String.ofList w := by
  rw [List.length_append, Nat.add_sub_cancel, List.take_left]

theorem number_append {x : Float} (h : IsNumberText w x) (hlead : IsBlank lead)
    (hrest : EndsToken rest) :
    number (lead ++ (w ++ rest)) = .accepted (x, String.ofList w) rest := by
  refine (after_blanks hlead (h.startsDark rest)).trans ?_
  refine (bind_of_accepted (p := remaining) rfl).trans ?_
  rw [← ofList_take_append w rest]
  cases h with
  | hexadecimal hmark hne hdigits =>
    have hread := hexadecimal_append hmark hne hdigits hrest
    exact (bind_of_accepted (attempt_of_accepted hread)).trans rfl
  | @decimal m front back x e suffix hm hx hsuffix =>
    have hnone : attempt hexadecimal (m ++ (x ++ suffix.toList) ++ rest) =
        .accepted none (m ++ (x ++ suffix.toList) ++ rest) := by
      obtain ⟨c, more, rfl, hfirst⟩ := hm.exists_eq_cons
      refine attempt_hexadecimal_of_head ?_
      rintro _ ⟨⟩ hand
      obtain rfl := eq_of_foldCase_and hand
      exact absurd hfirst (by decide)
    have hread : decimal (m ++ (x ++ suffix.toList) ++ rest) = .accepted
        ⟨Text.ofDecimal (front ++ back), e - back.length⟩ rest := by
      rw [List.append_assoc, List.append_assoc]
      exact decimal_append hm hx hsuffix hrest
    refine (bind_of_accepted hnone).trans ?_
    exact (bind_of_accepted (map_of_accepted hread)).trans rfl

theorem isNumberText_of_number {x : Float} {text : String}
    (h : number s = .accepted (x, text) rest) : IsNumberText text.toList x := by
  obtain ⟨-, s₁, -, h₁⟩ := exists_of_bind h
  obtain ⟨start, s₂, hstart, h₂⟩ := exists_of_bind h₁
  obtain ⟨rfl, rfl⟩ := Outcome.accepted.inj hstart
  obtain ⟨found, s₃, hfound, h₃⟩ := exists_of_bind h₂
  rw [attempt] at hfound
  split at hfound <;> obtain ⟨rfl, rfl⟩ := Outcome.accepted.inj hfound
  next n t hn =>
    obtain ⟨mark, digits, rfl, hnumber⟩ := exists_of_hexadecimal hn
    obtain ⟨hpair, -⟩ := Outcome.accepted.inj h₃
    obtain ⟨rfl, rfl⟩ := Prod.mk.inj hpair
    rwa [ofList_take_append, String.toList_ofList]
  next =>
    obtain ⟨value, t, hvalue, h₄⟩ := exists_of_bind h₃
    obtain ⟨d, t', hd, hvalue⟩ := exists_of_bind hvalue
    obtain ⟨rfl, rfl⟩ := Outcome.accepted.inj hvalue
    obtain ⟨w, rfl, hnumber⟩ := exists_of_decimal hd
    obtain ⟨hpair, -⟩ := Outcome.accepted.inj h₄
    obtain ⟨rfl, rfl⟩ := Prod.mk.inj hpair
    rwa [ofList_take_append, String.toList_ofList]

/-- Everything that is no digit, no point and no `&` is the start of something else. -/
theorem number_of_head (hlead : IsBlank lead) (hdark : StartsDark s)
    (h : ∀ c ∈ s.head?, ¬ c.isDigit ∧ c ≠ '.' ∧ foldCase c ≠ '&') :
    number (lead ++ s) = .refused s := by
  have hnone := attempt_hexadecimal_of_head fun c hc => (h c hc).2.2
  refine (after_blanks hlead hdark).trans ?_
  refine (bind_of_accepted (p := remaining) rfl).trans ?_
  refine (bind_of_accepted hnone).trans ?_
  refine bind_of_refused (map_of_refused (bind_of_refused (t := s) ?_))
  have hdigits := optional_of_refused (takeWhile1_of_head fun c hc => (h c hc).1)
  refine (bind_of_accepted hdigits).trans (bind_of_refused (satisfy_of_head fun c hc heq => ?_))
  exact (h c hc).2.1 (eq_of_beq heq)

end LineBasic.Grammar
