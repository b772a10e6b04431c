import LineBasic.Decimal.Style
import LineBasic.Proofs.Decimal.Reading
import LineBasic.Proofs.Expr.Key

/-!
# Written numbers

The canonical text of a number that is not infinite is a sign and a decimal that reads back as the
absolute value (`Spells`), whether it is written as an integer or as the shortest decimal. So numbers
with the same text are the same, except that zero is written without its sign (`Number.text_alike`),
and a text has the form that the key of an expression expects of a number
(`Number.isNumeral_text`).
-/

namespace LineBasic

open Float.Model UnpackedFloat Number Decimal

/-! ## Digits -/

namespace Text

theorem ofDecimal_eq (s : List Char) : ofDecimal s = Nat.ofDigitChars 10 s 0 :=
  Nat.ofDigitChars_eq_foldl.symm

theorem ofDecimal_toDigits (n : Nat) : ofDecimal (Nat.toDigits 10 n) = n := by
  rw [ofDecimal_eq, Nat.ofDigitChars_ten_toDigits]

theorem ofDecimal_zeros_append (k : Nat) (s : List Char) :
    ofDecimal (List.replicate k '0' ++ s) = ofDecimal s := by
  rw [ofDecimal_eq, ofDecimal_eq, Nat.ofDigitChars_append, Nat.ofDigitChars_replicate_zero,
    Nat.mul_zero]

theorem ofDecimal_append_zeros (s : List Char) (k : Nat) :
    ofDecimal (s ++ List.replicate k '0') = 10 ^ k * ofDecimal s := by
  rw [ofDecimal_eq, ofDecimal_eq, Nat.ofDigitChars_append, Nat.ofDigitChars_replicate_zero]

end Text

/-! ## Decimals as texts -/

/-- Digits, and a point before the last of them if those are not all in front of it. -/
def pointed (front back : List Char) : List Char :=
  front ++ if back.isEmpty then [] else '.' :: back

/-- The decimal that is written with these digits before and after the point. -/
def Decimal.ofDigits (front back : List Char) : Decimal :=
  ⟨Text.ofDecimal (front ++ back), -back.length⟩

/-- The text is a decimal that is read as `x`. -/
def Spells (s : List Char) (x : Float) : Prop :=
  ∃ front back, front ≠ [] ∧ (∀ c ∈ front ++ back, c.isDigit) ∧ s = pointed front back ∧
    (ofDigits front back).toFloat = x

/-- A text is read in one way. -/
theorem Spells.unique {s : List Char} {x y : Float} (hx : Spells s x) (hy : Spells s y) :
    x = y := by
  obtain ⟨front, back, -, hdigits, hs, rfl⟩ := hx
  obtain ⟨front', back', -, hdigits', hs', rfl⟩ := hy
  have stops {f b : List Char} (h : ∀ c ∈ f ++ b, c.isDigit) : ∀ c ∈ f, ¬ (c == '.') = true := by
    intro c hc hdot
    have hdigit := h c (List.mem_append_left b hc)
    rw [eq_of_beq hdot] at hdigit
    exact absurd hdigit (by decide)
  have begins (b : List Char) :
      ∀ c ∈ (if b.isEmpty then [] else '.' :: b).head?, (c == '.') = true := by
    intro c hc
    split at hc
    · cases hc
    · rw [← Option.some.inj hc]
      rfl
  obtain ⟨rfl, hrest⟩ := append_eq_append_of_stop (stops hdigits) (stops hdigits') (begins back)
    (begins back') (hs.symm.trans hs')
  have hback : back = back' := by
    cases back with
    | nil =>
      cases back' with
      | nil => rfl
      | cons => cases hrest
    | cons =>
      cases back' with
      | nil => cases hrest
      | cons => exact (List.cons.inj hrest).2
  rw [hback]

theorem Spells.exists_eq_cons {s : List Char} {x : Float} (h : Spells s x) :
    ∃ c rest, s = c :: rest ∧ c.isDigit := by
  obtain ⟨front, back, hfront, hdigits, rfl, -⟩ := h
  obtain ⟨c, rest, rfl⟩ := List.exists_cons_of_ne_nil hfront
  exact ⟨c, _, rfl, hdigits c List.mem_cons_self⟩

theorem Spells.head_isDigit {s : List Char} {x : Float} (h : Spells s x) :
    ∀ c ∈ s.head?, c.isDigit := by
  obtain ⟨c, rest, rfl, hdigit⟩ := h.exists_eq_cons
  intro d hd
  rwa [← Option.some.inj hd]

theorem ne_minus_of_isDigit {c : Char} (h : c.isDigit) : c ≠ '-' := by
  rintro rfl
  exact absurd h (by decide)

theorem not_endsWord_of_isDigit {c : Char} (h : c.isDigit) : ¬ endsWord c := by
  intro hend
  simp only [endsWord, Bool.or_eq_true, beq_iff_eq] at hend
  rcases hend with ((rfl | rfl) | rfl) | rfl <;> exact absurd h (by decide)

theorem Spells.not_endsWord {s : List Char} {x : Float} (h : Spells s x) :
    ∀ c ∈ s, ¬ endsWord c := by
  obtain ⟨front, back, -, hdigits, rfl, -⟩ := h
  intro c hc
  unfold pointed at hc
  rcases List.mem_append.1 hc with hc | hc
  · exact not_endsWord_of_isDigit (hdigits c (List.mem_append_left back hc))
  · split at hc
    · cases hc
    · rcases List.mem_cons.1 hc with rfl | hc
      · decide
      · exact not_endsWord_of_isDigit (hdigits c (List.mem_append_right front hc))

theorem Decimal.abs_toFloat (d : Decimal) : d.toFloat.abs = d.toFloat := by
  obtain ⟨exponent, mantissa, -, hfields⟩ := d.exists_fields_toFloat
  have habs : (parts d.toFloat).abs = parts d.toFloat := by
    generalize parts d.toFloat = u at hfields
    cases hfields <;> rfl
  change assemble (parts d.toFloat).abs = _
  rw [habs, assemble_parts]

/-- No decimal is read with a sign. -/
theorem Spells.abs_eq {s : List Char} {x : Float} (h : Spells s x) : x.abs = x := by
  obtain ⟨front, back, -, -, -, rfl⟩ := h
  exact (ofDigits front back).abs_toFloat

theorem isDigit_of_mem_toDigits {n : Nat} {c : Char} (h : c ∈ Nat.toDigits 10 n) : c.isDigit :=
  Nat.isDigit_of_mem_toDigits (by decide) (by decide) h

theorem isDigit_of_mem_zeros {j : Nat} {c : Char} (h : c ∈ List.replicate j '0') : c.isDigit := by
  rw [List.eq_of_mem_replicate h]
  rfl

section Point

variable {ds : List Char}

/-- The point stands before all digits, perhaps with zeros between them. -/
theorem spells_leadingZeros (hne : ds ≠ []) (hdigits : ∀ c ∈ ds, c.isDigit) {j : Nat} {k : Int}
    (hj : ds.length + k = -j) :
    Spells ('0' :: '.' :: (List.replicate j '0' ++ ds))
      (⟨Text.ofDecimal ds, k⟩ : Decimal).toFloat := by
  refine ⟨['0'], List.replicate j '0' ++ ds, List.cons_ne_nil _ _, ?_, ?_, ?_⟩
  · intro c hc
    rcases List.mem_append.1 hc with hc | hc
    · exact isDigit_of_mem_zeros (j := 1) hc
    · exact (List.mem_append.1 hc).elim isDigit_of_mem_zeros (hdigits c)
  · simp [pointed, hne]
  · have hread : Text.ofDecimal (['0'] ++ (List.replicate j '0' ++ ds)) = Text.ofDecimal ds := by
      rw [← Text.ofDecimal_zeros_append j ds]
      exact Text.ofDecimal_zeros_append 1 _
    unfold ofDigits
    rw [hread, List.length_append, List.length_replicate]
    congr 2
    omega

/-- All digits stand before the point, perhaps with zeros behind them. -/
theorem spells_trailingZeros (hne : ds ≠ []) (hdigits : ∀ c ∈ ds, c.isDigit)
    (hpos : 0 < Text.ofDecimal ds) (j : Nat) :
    Spells (ds ++ List.replicate j '0') (⟨Text.ofDecimal ds, j⟩ : Decimal).toFloat := by
  refine ⟨ds ++ List.replicate j '0', [], ?_, ?_, ?_, ?_⟩
  · simp [hne]
  · intro c hc
    rw [List.append_nil] at hc
    exact (List.mem_append.1 hc).elim (hdigits c) isDigit_of_mem_zeros
  · simp [pointed]
  · refine (toFloat_of_value_eq hpos ?_).symm
    unfold ofDigits value
    rw [List.append_nil, Text.ofDecimal_append_zeros, zpow_natCast]
    push_cast
    simp [mul_comm]

/-- The point stands among the digits. -/
theorem spells_innerPoint (hdigits : ∀ c ∈ ds, c.isDigit) {j : Nat} {k : Int} (hpos : 0 < j)
    (hshort : j < ds.length) (hj : ds.length + k = j) :
    Spells (ds.take j ++ '.' :: ds.drop j) (⟨Text.ofDecimal ds, k⟩ : Decimal).toFloat := by
  refine ⟨ds.take j, ds.drop j, ?_, ?_, ?_, ?_⟩
  · rw [List.ne_nil_iff_length_pos, List.length_take]
    omega
  · rwa [List.take_append_drop]
  · have hback : ds.drop j ≠ [] := by
      rw [List.ne_nil_iff_length_pos, List.length_drop]
      omega
    simp [pointed, hback]
  · unfold ofDigits
    rw [List.take_append_drop, List.length_drop]
    congr 2
    omega

end Point

/-- Wherever the point falls, the written decimal has the value that it is made from. -/
theorem spells_positional {n : Nat} (hn : 0 < n) (k : Int) :
    Spells (Style.listing.positional (Nat.toDigits 10 n) ((Nat.toDigits 10 n).length + k)).toList
      (⟨n, k⟩ : Decimal).toFloat := by
  have hvalue := Text.ofDecimal_toDigits n
  have hdigits : ∀ c ∈ Nat.toDigits 10 n, c.isDigit := fun c => isDigit_of_mem_toDigits
  have hne : Nat.toDigits 10 n ≠ [] := Nat.toDigits_ne_nil
  generalize Nat.toDigits 10 n = ds at *
  subst hvalue
  unfold Style.positional
  split
  next hpoint =>
    obtain ⟨j, hj⟩ : ∃ j : Nat, ds.length + k = -j := ⟨(ds.length + k).natAbs, by omega⟩
    rw [hj, Int.natAbs_neg, Int.natAbs_natCast, String.toList_ofList]
    exact spells_leadingZeros hne hdigits hj
  next hpoint =>
    obtain ⟨j, hj⟩ := Int.eq_ofNat_of_zero_le (not_le.1 hpoint).le
    rw [hj, Int.natAbs_natCast]
    split
    next hlong =>
      obtain ⟨i, rfl⟩ : ∃ i : Nat, k = i := ⟨k.toNat, by omega⟩
      have hi : j - ds.length = i := by omega
      rw [hi]
      simpa [Style.listing] using spells_trailingZeros hne hdigits hn i
    next hshort =>
      rw [String.toList_ofList]
      exact spells_innerPoint hdigits (by omega) (not_le.1 hshort) hj

/-! ## The canonical text -/

namespace Number

/-- A number with the sign. -/
def withSign : Sign → Float → Float
  | .positive, x => x
  | .negative, x => -x

theorem withSign_negative (x : Float) : withSign .negative x = -x := rfl

def signText : Sign → List Char
  | .positive => []
  | .negative => ['-']

/-- The text is a sign, and then a decimal that is read as the absolute value, or the word for
infinity. Zero is written without its sign. -/
inductive Written (x : Float) : List Char → Prop
  | decimal (s : Sign) {w : List Char} {a : Float} : Spells w a → Arithmetic.Alike x (withSign s a) →
    Written x (signText s ++ w)
  | infinity (s : Sign) : parts x = .infinity s → Written x (signText s ++ ['i', 'n', 'f'])

variable {x y : Float} {m : Nat} {e : Int} {s : Sign}

theorem signText_append_inj {s t : Sign} {v w : List Char} (hv : ∀ c ∈ v.head?, c ≠ '-')
    (hw : ∀ c ∈ w.head?, c ≠ '-') (h : signText s ++ v = signText t ++ w) : s = t ∧ v = w := by
  cases s <;> cases t
  · exact ⟨rfl, (List.cons.inj h).2⟩
  · exact absurd rfl (hw '-' (congrArg List.head? h.symm))
  · exact absurd rfl (hv '-' (congrArg List.head? h))
  · exact ⟨rfl, h⟩

theorem Written.alike {v w : List Char} (hx : Written x v) (hy : Written y w) (h : v = w) :
    Arithmetic.Alike x y := by
  have letter : ∀ c ∈ ['i', 'n', 'f'].head?, c ≠ '-' := by
    rintro c ⟨⟩
    decide
  have digit {w : List Char} {a : Float} (hw : Spells w a) : ∀ c ∈ w.head?, c ≠ '-' :=
    fun c hc => ne_minus_of_isDigit (hw.head_isDigit c hc)
  have ne_infinity {w : List Char} {a : Float} (hw : Spells w a) : w ≠ ['i', 'n', 'f'] := by
    rintro rfl
    exact absurd (hw.head_isDigit 'i' rfl) (by decide)
  cases hx with
  | decimal s hspells hx =>
    cases hy with
    | decimal t hspells' hy =>
      obtain ⟨rfl, rfl⟩ := signText_append_inj (digit hspells) (digit hspells') h
      rw [hspells'.unique hspells] at hy
      exact hx.trans hy.symm
    | infinity t _ =>
      exact absurd (signText_append_inj (digit hspells) letter h).2 (ne_infinity hspells)
  | infinity s hx =>
    cases hy with
    | decimal t hspells _ =>
      exact absurd (signText_append_inj letter (digit hspells) h).2.symm (ne_infinity hspells)
    | infinity t hy =>
      obtain ⟨rfl, -⟩ := signText_append_inj letter letter h
      exact .inl (parts_injective (hx.trans hy.symm))

/-! ### The text is written in this form -/

theorem canonicalPair_of_parts {hm : 0 < m} (hx : parts x = .finite s m e hm) :
    CanonicalPair m e := by
  have hcanonical := canonical_parts x
  rwa [hx] at hcanonical

theorem eq_withSign {hm : 0 < m} (hx : parts x = .finite s m e hm) :
    x = withSign s (assemble (.finite .positive m e hm)) := by
  have hcanonical : Canonical (.finite .positive m e hm) := canonicalPair_of_parts hx
  cases s with
  | positive => exact eq_assemble hx
  | negative =>
    rw [withSign_negative, neg_eq, parts_assemble hcanonical]
    exact eq_assemble hx

theorem spells_zero : Spells ['0'] (assemble (.zero .positive)) :=
  ⟨['0'], [], List.cons_ne_nil _ _, by simp, rfl, toFloat_of_digits_eq_zero rfl⟩

theorem alike_withSign_zero (h : Arithmetic.isZero x = true) (s : Sign) :
    Arithmetic.Alike x (withSign s (assemble (.zero .positive))) := by
  refine .inr ⟨h, ?_⟩
  cases s with
  | positive => exact isZero_assemble .positive
  | negative =>
    rw [withSign_negative, neg_eq, parts_assemble (canonical_zero _)]
    exact isZero_assemble .negative

/-- Listings have no powers of ten. -/
theorem writeDecimal_listing (d : Decimal) :
    Style.listing.writeDecimal d = Style.listing.positional (Nat.toDigits 10 d.digits)
      ((Nat.toDigits 10 d.digits).length + d.exponent) := by
  unfold Style.writeDecimal
  rw [Nat.toString_eq_ofList_toDigits, String.toList_ofList]
  rfl

theorem written_shortest {hm : 0 < m} (hx : parts x = .finite s m e hm) :
    Written x (signText s ++
      (Style.listing.writeDecimal (shortest .greater x.abs m e)).toList) := by
  have hpair := canonicalPair_of_parts hx
  have habs : x.abs = assemble (.finite .positive m e hm) := by
    have hx' : x.abs = assemble (parts x).abs := rfl
    rw [hx', hx]
    rfl
  have hcanonical : Canonical (.finite .positive m e hm) := hpair
  obtain ⟨hdigits, hread⟩ := toFloat_shortest .greater (x := x.abs) hpair (by
    rw [habs, parts_assemble hcanonical])
  have hspells := spells_positional hdigits (shortest .greater x.abs m e).exponent
  rw [← writeDecimal_listing] at hspells
  refine .decimal s hspells (.inl ?_)
  rw [hread, habs]
  exact eq_withSign hx

theorem positional_zero : (Style.listing.positional ['0'] 1).toList = ['0'] := by
  simp [Style.positional, Style.listing]

theorem written_write (hx : IsNumber x) : Written x (Style.listing.write x).toList := by
  unfold Style.write
  have hparts : parts x = x.toModel.unpack := rfl
  cases hunpack : x.toModel.unpack with
  | notANumber => exact absurd hunpack hx
  | infinity s =>
    rw [hunpack] at hparts
    have hwritten := Written.infinity s hparts
    cases s <;> simpa [signText, Style.listing] using hwritten
  | zero s =>
    rw [hunpack] at hparts
    have hwritten := Written.decimal s spells_zero (alike_withSign_zero (isZero_iff.2 ⟨s, hparts⟩) s)
    cases s <;> simpa [signText, positional_zero] using hwritten
  | finite s m e hm =>
    rw [hunpack] at hparts
    have htie : Style.listing.tie = .greater := rfl
    have hwritten := written_shortest hparts
    cases s <;> simpa [signText, htie] using hwritten

theorem written_toString {n : Int} (hn : integer? x = some n) : Written x (toString n).toList := by
  rcases integer?_eq_some hn with ⟨hzero, rfl⟩ | ⟨s, m, e, hm, hparts, hvalue, hsigned, -, hne⟩
  · exact .decimal .positive spells_zero (alike_withSign_zero hzero _)
  · have hpair := canonicalPair_of_parts hparts
    have hspells : Spells (Nat.toDigits 10 n.natAbs) (assemble (.finite .positive m e hm)) := by
      refine ⟨Nat.toDigits 10 n.natAbs, [], Nat.toDigits_ne_nil, ?_, ?_, ?_⟩
      · rw [List.append_nil]
        exact fun c => isDigit_of_mem_toDigits
      · exact (List.append_nil _).symm
      · refine toFloat_of_value hpair ?_
        unfold ofDigits value
        rw [List.append_nil, Text.ofDecimal_toDigits, hvalue]
        simp
    have htext : (toString n).toList = signText s ++ Nat.toDigits 10 n.natAbs := by
      rw [Int.toString_eq_repr, Int.repr_eq_if]
      cases s with
      | positive =>
        have hsigned : (n.natAbs : Int) = n := hsigned
        have hnat : n.toNat = n.natAbs := by omega
        rw [if_pos (by omega), hnat, Nat.toList_repr]
        rfl
      | negative =>
        have hsigned : -(n.natAbs : Int) = n := hsigned
        have hnat : (-n).toNat = n.natAbs := by omega
        rw [if_neg (by omega), hnat, String.toList_append, Nat.toList_repr]
        rfl
    rw [htext]
    exact .decimal s hspells (.inl (eq_withSign hparts))

theorem written_text (hx : IsNumber x) : Written x (text x).toList := by
  unfold text
  split
  next n hn =>
    split
    · exact written_toString hn
    · exact written_write hx
  next => exact written_write hx

theorem abs_withSign (s : Sign) (x : Float) : (withSign s x).abs = x.abs := by
  cases s with
  | positive => rfl
  | negative =>
    change assemble (parts (-x)).abs = assemble (parts x).abs
    rw [parts_neg]
    cases parts x <;> rfl

/-- A number other than zero is written as its sign and its absolute value. -/
theorem exists_spells_abs {hm : 0 < m} (hx : parts x = .finite s m e hm) :
    ∃ w, (text x).toList = signText s ++ w ∧ Spells w x.abs := by
  have hnumber : IsNumber x := fun hnan => by cases hx.symm.trans hnan
  have hnonzero : ¬ Arithmetic.isZero x = true := by
    rw [isZero_iff]
    rintro ⟨t, ht⟩
    cases hx.symm.trans ht
  generalize (text x).toList = v, written_text hnumber = hv
  cases hv with
  | infinity t hinf => cases hx.symm.trans hinf
  | @decimal t w a hspells halike =>
    obtain rfl := halike.resolve_right fun hzero => hnonzero hzero.1
    -- the decimal that was written has a positive sign
    have hsign : t = s := by
      obtain ⟨front, back, -, -, -, rfl⟩ := hspells
      obtain ⟨exponent, mantissa, -, hfields⟩ := (ofDigits front back).exists_fields_toFloat
      have hparts : parts (withSign t (ofDigits front back).toFloat) =
          match t with
          | .positive => parts (ofDigits front back).toFloat
          | .negative => (parts (ofDigits front back).toFloat).neg := by
        cases t with
        | positive => rfl
        | negative => exact parts_neg _
      rw [hx] at hparts
      generalize parts (ofDigits front back).toFloat = u at hfields hparts
      cases t <;> cases hfields <;> cases hparts <;> rfl
    rw [abs_withSign, hspells.abs_eq, hsign]
    exact ⟨w, rfl, hspells⟩

theorem text_of_isZero (hx : Arithmetic.isZero x = true) : text x = "0" := by
  obtain ⟨s, hs⟩ := isZero_iff.1 hx
  rw [eq_assemble hs]
  cases s <;> decide +kernel

/-- A decimal that is not read as infinite is written without a sign, as a decimal that is read as
the same number. -/
theorem spells_text (d : Decimal) (h : Arithmetic.isFinite d.toFloat = true) :
    Spells (text d.toFloat).toList d.toFloat := by
  have habs := d.abs_toFloat
  obtain ⟨exponent, mantissa, -, hfields⟩ := d.exists_fields_toFloat
  generalize d.toFloat = x at h hfields habs ⊢
  generalize hu : parts x = u at hfields
  have hunpack : x.toModel.unpack = u := hu
  have hfinite : (!u.isNaN && !u.isInf) = true := hunpack ▸ h
  have positive {m : Nat} {e : Int} {hm : 0 < m} (hu : parts x = .finite .positive m e hm) :
      Spells (text x).toList x := by
    obtain ⟨w, hw, hspells⟩ := exists_spells_abs hu
    rw [habs] at hspells
    exact hw ▸ hspells
  cases hfields with
  | infinity => cases hfinite
  | notANumber => cases hfinite
  | zero =>
    rw [text_of_isZero (isZero_iff.2 ⟨_, hu⟩), eq_assemble hu]
    exact spells_zero
  | subnormal => exact positive hu
  | normal => exact positive hu

/-- Numbers with the same text are the same up to the sign of zero. -/
theorem text_alike (hx : IsNumber x) (hy : IsNumber y) (h : text x = text y) :
    Arithmetic.Alike x y :=
  (written_text hx).alike (written_text hy) (congrArg String.toList h)

theorem isNumeral_text (hx : IsNumber x) : IsNumeral (text x).toList := by
  have sign {w : List Char} {s : Sign} (hbegins : ∃ c rest, w = c :: rest ∧ BeginsNumeral c)
      (hinside : ∀ c ∈ w, ¬ endsWord c) : IsNumeral (signText s ++ w) := by
    obtain ⟨c, rest, rfl, hc⟩ := hbegins
    cases s with
    | positive => exact ⟨⟨c, rest, .inl rfl, hc⟩, hinside⟩
    | negative =>
      refine ⟨⟨c, rest, .inr rfl, hc⟩, fun d hd => ?_⟩
      rcases List.mem_cons.1 hd with rfl | hd
      · decide
      · exact hinside d hd
  generalize (text x).toList = w, written_text hx = hw
  cases hw with
  | decimal s hspells _ =>
    obtain ⟨c, rest, rfl, hc⟩ := hspells.exists_eq_cons
    exact sign ⟨c, rest, rfl, .inl hc⟩ hspells.not_endsWord
  | infinity s _ => exact sign ⟨'i', _, rfl, .inr rfl⟩ (not_endsWord_of_all (by decide))

theorem text_of_not_isNumber (hx : ¬ IsNumber x) : text x = "NaN" := by
  have hx : x.toModel.unpack = .notANumber := not_not.1 hx
  unfold text integer? Style.write
  rw [hx]
  rfl

/-- The text of what is no number is not a numeral. -/
theorem isNumber_of_isNumeral (h : IsNumeral (text x).toList) : IsNumber x := by
  by_contra hx
  have hletters : "NaN".toList = ['N', 'a', 'N'] := by decide
  rw [text_of_not_isNumber hx, hletters] at h
  obtain ⟨c, rest, hs | hs, hc⟩ := h.begins
  · obtain ⟨rfl, -⟩ := List.cons.inj hs
    exact absurd hc (by simp [BeginsNumeral])
  · exact absurd (List.cons.inj hs).1 (by decide)

instance : NumeralTexts Float where
  text_cases x := by
    by_cases hx : IsNumber x
    · exact .inl (isNumeral_text hx)
    · exact .inr (text_of_not_isNumber hx)

/-- The text of a number is that of its value: zeros of both signs have the same. -/
theorem text_eq_iff : text x = text y ↔ Arithmetic.Alike x y := by
  constructor
  · intro h
    by_cases hx : IsNumber x
    · have hy : IsNumber y := isNumber_of_isNumeral (h ▸ isNumeral_text hx)
      exact text_alike hx hy h
    · have hy : ¬ IsNumber y := fun hy => hx (isNumber_of_isNumeral (h ▸ isNumeral_text hy))
      exact .inl (parts_injective ((not_not.1 hx).trans (not_not.1 hy).symm))
  · rintro (rfl | ⟨hx, hy⟩)
    · rfl
    · rw [text_of_isZero hx, text_of_isZero hy]

/-! ### Signs -/

theorem less_zero_iff {hm : 0 < m} (hx : parts x = .finite s m e hm) :
    Arithmetic.less x Arithmetic.zero = true ↔ s = .negative := by
  have hunpack : x.toModel.unpack = .finite s m e hm := hx
  have hrank : rank Arithmetic.zero = toLex (0, toLex (0, 0)) := by decide +kernel
  have hnumber : IsNumber Arithmetic.zero := by
    rw [← same_self_iff]
    decide +kernel
  have hnumber' : IsNumber x := fun h => by cases hunpack.symm.trans h
  rw [less_iff, hrank]
  cases s with
  | positive =>
    have hrank' : rank x = toLex (1, toLex (e, (m : ℤ))) := congrArg unpackedRank hunpack
    rw [hrank']
    simp [Prod.Lex.toLex_lt_toLex]
  | negative =>
    have hrank' : rank x = toLex (-1, toLex (-e, -(m : ℤ))) := congrArg unpackedRank hunpack
    rw [hrank']
    simp [Prod.Lex.toLex_lt_toLex, hnumber, hnumber']

/-- A finite number is written as its absolute value, and with a minus sign if it is below zero. -/
inductive WrittenFinite (x : Float) : List Char → Prop
  | unsigned {w : List Char} : Arithmetic.less x Arithmetic.zero = false → Spells w x.abs →
    Arithmetic.Alike x x.abs → (parts x ≠ .zero .negative → x = x.abs) → WrittenFinite x w
  | signed {w : List Char} : Arithmetic.less x Arithmetic.zero = true → Spells w x.abs →
    x = -x.abs → WrittenFinite x ('-' :: w)

theorem writtenFinite_text (h : Arithmetic.isFinite x = true) :
    WrittenFinite x (text x).toList := by
  generalize hu : parts x = u
  have hunpack : x.toModel.unpack = u := hu
  have hfinite : (!u.isNaN && !u.isInf) = true := hunpack ▸ h
  have habs : x.abs = assemble u.abs := by rw [← hu]; rfl
  cases u with
  | infinity => cases hfinite
  | notANumber => cases hfinite
  | zero s =>
    have hzero := isZero_iff.2 ⟨s, hu⟩
    rw [text_of_isZero hzero]
    refine .unsigned ?_ (habs ▸ spells_zero) (habs ▸ .inr ⟨hzero, isZero_assemble _⟩)
      fun hsign => ?_
    · rw [eq_assemble hu]
      cases s <;> decide +kernel
    · cases s with
      | positive => rw [habs, eq_assemble hu]; rfl
      | negative => exact absurd hu hsign
  | finite s m e hm =>
    obtain ⟨w, hw, hspells⟩ := exists_spells_abs hu
    rw [hw]
    cases s with
    | positive =>
      have hx : x = x.abs := by rw [habs, eq_assemble hu]; rfl
      refine .unsigned ?_ hspells (.inl hx) fun _ => hx
      rw [Bool.eq_false_iff, Ne, less_zero_iff hu]
      exact nofun
    | negative =>
      refine .signed ((less_zero_iff hu).2 rfl) hspells ?_
      rw [habs]
      exact eq_withSign hu

end Number
end LineBasic
