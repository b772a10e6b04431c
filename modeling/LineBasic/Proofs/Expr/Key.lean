import Mathlib.Data.List.Basic
import LineBasic.Expr.Printer
import LineBasic.Grammar.Lexical

/-!
# Keys can be read back

The key of an expression decides the expression up to the order of the operands of commutative
operators and up to the spelling of names and numbers (`Expr.reordered_of_wellNamed`). This needs
names and strings of the form that the grammar gives them (`Expr.WellNamed`), and texts of numbers
that are no names (`NumeralTexts`). Inside a longer text a key ends where it has to: two keys with
different continuations are equal, and so are the continuations (`Expr.Readable`). Expressions that
are equal up to the order of operands have the same key (`Expr.ReorderedBy.key_eq`).
-/

namespace LineBasic

/-! ## Words and numerals -/

/-- The characters that end a word in a key. -/
def endsWord (c : Char) : Bool := c == ' ' || c == ',' || c == '(' || c == ')'

/-- It is enough to look at each character, not at all characters there are. -/
theorem not_endsWord_of_all {s : List Char} (h : s.all (fun c => !endsWord c) = true) :
    ∀ c ∈ s, ¬ endsWord c := by
  simpa using h

/-- A letter and then anything that does not end a word. -/
structure IsWord (s : List Char) : Prop where
  letter : ∃ c rest, s = c :: rest ∧ c.isAlpha
  inside : ∀ c ∈ s, ¬ endsWord c

/-- A digit, or the letter with which the word for infinity begins. -/
def BeginsNumeral (c : Char) : Prop := c.isDigit ∨ c = 'i'

/-- The beginning of a numeral and then anything that does not end a word, all of it perhaps after a
minus sign. -/
structure IsNumeral (s : List Char) : Prop where
  begins : ∃ c rest, (s = c :: rest ∨ s = '-' :: c :: rest) ∧ BeginsNumeral c
  inside : ∀ c ∈ s, ¬ endsWord c

/-- The name of a variable or an array, as the grammar reads it. -/
structure Name.IsVariable (n : Name) : Prop where
  word : IsWord n.key.toList
  admitted : Grammar.isVariableName n

/-- The name of a user function, as the grammar reads it. -/
structure Name.IsFunction (n : Name) : Prop where
  word : IsWord n.key.toList
  marked : ['F', 'N'] <+: n.key.toList

theorem Name.IsVariable.ne_not {n : Name} (h : n.IsVariable) : n.key ≠ "NOT" := by
  intro hkey
  have hadmitted := h.admitted
  simp [Grammar.isVariableName, Grammar.reserved, hkey] at hadmitted

theorem Name.IsVariable.not_marked {n : Name} (h : n.IsVariable) :
    ¬ ['F', 'N'] <+: n.key.toList := by
  have hadmitted := h.admitted
  simp only [Grammar.isVariableName, Bool.and_eq_true, Bool.not_eq_true', ← Bool.not_eq_true,
    List.isPrefixOf_iff_prefix] at hadmitted
  exact hadmitted.2

theorem isLower_toUpper (c : Char) : c.toUpper.isLower = false := by
  unfold Char.toUpper
  delta Char.isLower
  split <;> grind

/-- Keys are in upper case. -/
theorem Name.isLower_of_mem_key {n : Name} {c : Char} (h : c ∈ n.key.toList) :
    c.isLower = false := by
  unfold key Text.upper at h
  rw [String.toList_map] at h
  obtain ⟨d, -, rfl⟩ := List.mem_map.1 h
  exact isLower_toUpper d

/-- Two texts without stops that are each continued by a stop, or by nothing, are equal if the whole
texts are. -/
theorem append_eq_append_of_stop {stop : Char → Bool} {w₁ w₂ s₁ s₂ : List Char}
    (h₁ : ∀ c ∈ w₁, ¬ stop c) (h₂ : ∀ c ∈ w₂, ¬ stop c) (hs₁ : ∀ c ∈ s₁.head?, stop c)
    (hs₂ : ∀ c ∈ s₂.head?, stop c) (h : w₁ ++ s₁ = w₂ ++ s₂) : w₁ = w₂ ∧ s₁ = s₂ := by
  induction w₁ generalizing w₂ with
  | nil =>
    cases w₂ with
    | nil => exact ⟨rfl, h⟩
    | cons c w₂ =>
      rw [List.nil_append, List.cons_append] at h
      exact absurd (hs₁ c (by simp [h])) (h₂ c List.mem_cons_self)
  | cons c w₁ ih =>
    cases w₂ with
    | nil =>
      rw [List.nil_append, List.cons_append] at h
      exact absurd (hs₂ c (by simp [← h])) (h₁ c List.mem_cons_self)
    | cons d w₂ =>
      obtain ⟨rfl, hrest⟩ := List.cons.inj h
      obtain ⟨rfl, hs⟩ := ih (fun x hx => h₁ x (List.mem_cons_of_mem _ hx))
        (fun x hx => h₂ x (List.mem_cons_of_mem _ hx)) hrest
      exact ⟨rfl, hs⟩

/-! ## Names of intrinsic functions -/

namespace Intrinsic

theorem isWord_name (f : Intrinsic) : IsWord f.name.toList := by
  cases f <;> exact ⟨⟨_, _, rfl, by decide⟩, not_endsWord_of_all (by decide)⟩

theorem ofName?_name (f : Intrinsic) : ofName? f.name = some f := by
  cases f <;> rfl

theorem isLower_of_mem_name (f : Intrinsic) : ∀ c ∈ f.name.toList, c.isLower = false := by
  have hall : f.name.toList.all (fun c => !c.isLower) = true := by cases f <;> decide
  simpa using hall

theorem not_marked_name (f : Intrinsic) : ¬ ['F', 'N'] <+: f.name.toList := by
  cases f <;> decide

end Intrinsic

namespace Expr

variable {ν : Type}

mutual

/-- Names and strings have the forms that the grammar gives them. -/
def WellNamed : Expr ν → Prop
  | .number .. => True
  | .string body => '"' ∉ body.toList
  | .scalar name => name.IsVariable
  | .element name subscripts =>
    name.IsVariable ∧ Intrinsic.ofName? name.key = none ∧ WellNamedList subscripts
  | .unary _ operand => operand.WellNamed
  | .binary _ left right => left.WellNamed ∧ right.WellNamed
  | .intrinsic _ args => WellNamedList args
  | .call name args => name.IsFunction ∧ WellNamedList args

def WellNamedList : List (Expr ν) → Prop
  | [] => True
  | e :: rest => e.WellNamed ∧ WellNamedList rest

end

mutual

/-- Equal up to the order of the operands of commutative operators, the case of letters in names
and the spelling of numbers, which are compared as `same` says. -/
inductive ReorderedBy (same : ν → ν → Prop) : Expr ν → Expr ν → Prop
  | number {v w : ν} {s t : String} : same v w → ReorderedBy same (.number v s) (.number w t)
  | string (body : String) : ReorderedBy same (.string body) (.string body)
  | scalar {m n : Name} : m.key = n.key → ReorderedBy same (.scalar m) (.scalar n)
  | element {m n : Name} {as bs : List (Expr ν)} : m.key = n.key → ReorderedListBy same as bs →
    ReorderedBy same (.element m as) (.element n bs)
  | unary (op : UnaryOp) {d e : Expr ν} : ReorderedBy same d e →
    ReorderedBy same (.unary op d) (.unary op e)
  | binary (op : BinaryOp) {c d e f : Expr ν} : ReorderedBy same c e → ReorderedBy same d f →
    ReorderedBy same (.binary op c d) (.binary op e f)
  | swapped {op : BinaryOp} {c d e f : Expr ν} : op.isCommutative → ReorderedBy same c f →
    ReorderedBy same d e → ReorderedBy same (.binary op c d) (.binary op e f)
  | intrinsic (f : Intrinsic) {as bs : List (Expr ν)} : ReorderedListBy same as bs →
    ReorderedBy same (.intrinsic f as) (.intrinsic f bs)
  | call {m n : Name} {as bs : List (Expr ν)} : m.key = n.key → ReorderedListBy same as bs →
    ReorderedBy same (.call m as) (.call n bs)

inductive ReorderedListBy (same : ν → ν → Prop) : List (Expr ν) → List (Expr ν) → Prop
  | nil : ReorderedListBy same [] []
  | cons {d e : Expr ν} {as bs : List (Expr ν)} : ReorderedBy same d e →
    ReorderedListBy same as bs → ReorderedListBy same (d :: as) (e :: bs)

end

end Expr

/-- The text of a number is a numeral, or the word for what is not a number. -/
class NumeralTexts (ν : Type) [Arithmetic ν] : Prop where
  text_cases (v : ν) : IsNumeral (Arithmetic.text v).toList ∨ Arithmetic.text v = "NaN"

namespace Expr

variable {ν : Type} [Arithmetic ν]

mutual

/-- Names and literals have the forms that the grammar gives them. -/
def Legible : Expr ν → Prop
  | .number value _ => IsNumeral (Arithmetic.text value).toList
  | .string body => '"' ∉ body.toList
  | .scalar name => name.IsVariable
  | .element name subscripts =>
    name.IsVariable ∧ Intrinsic.ofName? name.key = none ∧ LegibleList subscripts
  | .unary _ operand => operand.Legible
  | .binary _ left right => left.Legible ∧ right.Legible
  | .intrinsic _ args => LegibleList args
  | .call name args => name.IsFunction ∧ LegibleList args

def LegibleList : List (Expr ν) → Prop
  | [] => True
  | e :: rest => e.Legible ∧ LegibleList rest

end

mutual

theorem Legible.wellNamed : ∀ {e : Expr ν}, e.Legible → e.WellNamed
  | .number .., _ => trivial
  | .string _, h => h
  | .scalar _, h => h
  | .element _ _, h => by
    rw [Legible] at h
    exact ⟨h.1, h.2.1, LegibleList.wellNamed h.2.2⟩
  | .unary _ operand, h => by
    rw [Legible] at h
    show operand.WellNamed
    exact h.wellNamed
  | .binary .., h => by
    rw [Legible] at h
    exact ⟨h.1.wellNamed, h.2.wellNamed⟩
  | .intrinsic _ _, h => by
    rw [Legible] at h
    exact LegibleList.wellNamed h
  | .call _ _, h => by
    rw [Legible] at h
    exact ⟨h.1, LegibleList.wellNamed h.2⟩

theorem LegibleList.wellNamed : ∀ {es : List (Expr ν)}, LegibleList es → WellNamedList es
  | [], _ => trivial
  | _ :: _, h => by
    rw [LegibleList] at h
    exact ⟨h.1.wellNamed, LegibleList.wellNamed h.2⟩

end

/-- Equal up to the order of operands, numbers by their text. -/
abbrev Reordered : Expr ν → Expr ν → Prop := ReorderedBy fun v w =>
  Arithmetic.text v = Arithmetic.text w

abbrev ReorderedList : List (Expr ν) → List (Expr ν) → Prop := ReorderedListBy fun v w =>
  Arithmetic.text v = Arithmetic.text w

/-! ## The text of a key -/

/-- Arguments after the first one, as a key shows them. -/
def furtherText : List (Expr ν) → List Char
  | [] => []
  | e :: rest => ',' :: ' ' :: (e.key.toList ++ furtherText rest)

/-- Arguments as a key shows them. -/
def argumentText : List (Expr ν) → List Char
  | [] => []
  | e :: rest => e.key.toList ++ furtherText rest

theorem intercalate_keyList (es : List (Expr ν)) :
    (", ".intercalate (keyList es)).toList = argumentText es := by
  cases es with
  | nil => simp [keyList, argumentText]
  | cons e rest =>
    induction rest generalizing e with
    | nil => simp [keyList, argumentText, furtherText]
    | cons d rest ih =>
      have hrest := ih d
      rw [keyList] at hrest
      rw [keyList, keyList, String.intercalate_cons_cons]
      simp [hrest, argumentText, furtherText]

/-- The operands of a binary operator in the order in which the key shows them. -/
def inKeyOrder (op : BinaryOp) (left right : Expr ν) : Expr ν × Expr ν :=
  if op.isCommutative && decide (right.key < left.key) then (right, left) else (left, right)

theorem key_binary (op : BinaryOp) (left right : Expr ν) :
    (Expr.binary op left right).key.toList =
      '(' :: ((inKeyOrder op left right).1.key.toList ++ ' ' :: (op.symbol.toList ++
        ' ' :: ((inKeyOrder op left right).2.key.toList ++ [')']))) := by
  rw [key, inKeyOrder]
  split <;> simp

theorem key_unary (op : UnaryOp) (operand : Expr ν) :
    (Expr.unary op operand).key.toList =
      '(' :: (op.symbol.toList ++ (operand.key.toList ++ [')'])) := by
  rw [key]
  simp

/-- The word and the arguments of an expression that is a word with arguments in parentheses. -/
def application? : Expr ν → Option (String × List (Expr ν))
  | .element name subscripts => some (name.key, subscripts)
  | .intrinsic f args => some (f.name, args)
  | .call name args => some (name.key, args)
  | _ => none

theorem key_application {e : Expr ν} {w : String} {args : List (Expr ν)}
    (h : e.application? = some (w, args)) :
    e.key.toList = w.toList ++ '(' :: (argumentText args ++ [')']) := by
  cases e <;> simp only [application?, Option.some.injEq, Prod.mk.injEq, reduceCtorEq] at h
  all_goals
    obtain ⟨rfl, rfl⟩ := h
    rw [key, ← intercalate_keyList]
    simp

/-- How the key of an expression begins. -/
inductive Lead where
  | numeral | quote | word | group
  deriving DecidableEq

def lead : Expr ν → Lead
  | .number .. => .numeral
  | .string _ => .quote
  | .unary .. | .binary .. => .group
  | _ => .word

/-- What begins with these characters. The word for what is not a number has a small letter in the
second place, and names have none. -/
def leadOf? : List Char → Option Lead
  | [] => none
  | c :: rest =>
    if c = '"' then some .quote
    else if c = '(' then some .group
    else if c = '-' ∨ c.isDigit ∨ c = 'i' ∨ c = 'N' ∧ rest.head? = some 'a' then some .numeral
    else if c.isAlpha then some .word
    else none

theorem leadOf?_of_beginsNumeral {c : Char} (h : BeginsNumeral c) (rest : List Char) :
    leadOf? (c :: rest) = some .numeral := by
  have hquote : c ≠ '"' := by rintro rfl; exact absurd h (by simp [BeginsNumeral])
  have hparen : c ≠ '(' := by rintro rfl; exact absurd h (by simp [BeginsNumeral])
  have hnumeral : c = '-' ∨ c.isDigit ∨ c = 'i' ∨ c = 'N' ∧ rest.head? = some 'a' :=
    .inr (h.imp_right .inl)
  rw [leadOf?, if_neg hquote, if_neg hparen, if_pos hnumeral]

/-- A word of capital letters, however it is continued. -/
theorem leadOf?_of_isWord {w rest : List Char} (hw : IsWord w)
    (hcapital : ∀ c ∈ w, c.isLower = false) (hrest : rest.head? ≠ some 'a') :
    leadOf? (w ++ rest) = some .word := by
  obtain ⟨c, more, rfl, hc⟩ := hw.letter
  have hquote : c ≠ '"' := by rintro rfl; exact absurd hc (by decide)
  have hparen : c ≠ '(' := by rintro rfl; exact absurd hc (by decide)
  have hminus : c ≠ '-' := by rintro rfl; exact absurd hc (by decide)
  have hdigit : ¬ c.isDigit := by
    delta Char.isAlpha Char.isUpper Char.isLower Char.isDigit at *
    grind
  have hi : c ≠ 'i' := by
    rintro rfl
    exact absurd (hcapital 'i' List.mem_cons_self) (by decide)
  have hsecond : (more ++ rest).head? ≠ some 'a' := by
    cases more with
    | nil => exact hrest
    | cons d more =>
      intro hd
      obtain rfl : d = 'a' := Option.some.inj hd
      exact absurd (hcapital 'a' (List.mem_cons_of_mem _ List.mem_cons_self)) (by decide)
  have hnumeral :
      ¬ (c = '-' ∨ c.isDigit ∨ c = 'i' ∨ c = 'N' ∧ (more ++ rest).head? = some 'a') := by
    simp [hminus, hdigit, hi, hsecond, -List.head?_append]
  rw [List.cons_append, leadOf?, if_neg hquote, if_neg hparen, if_neg hnumeral, if_pos hc]

/-- What may follow a key. -/
def Follows (s : List Char) : Prop := ∀ c ∈ s.head?, c = ' ' ∨ c = ',' ∨ c = ')'

theorem Follows.endsWord {s : List Char} (h : Follows s) : ∀ c ∈ s.head?, endsWord c := by
  intro c hc
  rcases h c hc with rfl | rfl | rfl <;> rfl

theorem follows_nil : Follows [] := nofun

theorem follows_cons {c : Char} (h : c = ' ' ∨ c = ',' ∨ c = ')') (s : List Char) :
    Follows (c :: s) := by
  intro d hd
  obtain rfl : c = d := by simpa using hd
  exact h

theorem follows_furtherText (es : List (Expr ν)) (s : List Char) :
    Follows (furtherText es ++ ')' :: s) := by
  cases es with
  | nil => exact follows_cons (.inr (.inr rfl)) s
  | cons e rest => exact follows_cons (.inr (.inl rfl)) _

theorem leadOf?_text [NumeralTexts ν] (v : ν) (s : List Char) :
    leadOf? ((Arithmetic.text v).toList ++ s) = some .numeral := by
  rcases NumeralTexts.text_cases v with h | h
  · obtain ⟨c, rest, hs | hs, hc⟩ := h.begins <;> rw [hs]
    · exact leadOf?_of_beginsNumeral hc _
    · rfl
  · rw [h]
    rfl

theorem not_endsWord_of_mem_text [NumeralTexts ν] (v : ν) :
    ∀ c ∈ (Arithmetic.text v).toList, ¬ endsWord c := by
  rcases NumeralTexts.text_cases v with h | h
  · exact h.inside
  · rw [h]
    exact not_endsWord_of_all (by decide)

/-- The key of a well-named expression begins in the way that goes with the kind of the
expression. -/
theorem WellNamed.leadOf?_key [NumeralTexts ν] {e : Expr ν} (h : e.WellNamed) {s : List Char}
    (hs : Follows s) : leadOf? (e.key.toList ++ s) = some e.lead := by
  have name {n : Name} (hn : IsWord n.key.toList) {rest : List Char}
      (hrest : rest.head? ≠ some 'a') : leadOf? (n.key.toList ++ rest) = some .word :=
    leadOf?_of_isWord hn (fun _ => Name.isLower_of_mem_key) hrest
  have hend : s.head? ≠ some 'a' := fun ha => absurd (hs 'a' ha) (by decide)
  cases e with
  | number value text =>
    rw [key]
    exact leadOf?_text value s
  | string body =>
    rw [key]
    simp [leadOf?, lead]
  | scalar n =>
    rw [key]
    exact name (Name.IsVariable.word h) hend
  | element n subscripts =>
    rw [key_application rfl, List.append_assoc]
    exact name h.1.word (by simp)
  | unary op operand =>
    rw [key_unary]
    rfl
  | binary op left right =>
    rw [key_binary]
    rfl
  | intrinsic f args =>
    rw [key_application rfl, List.append_assoc]
    exact leadOf?_of_isWord f.isWord_name f.isLower_of_mem_name (by simp)
  | call n args =>
    rw [key_application rfl, List.append_assoc]
    exact name h.1.word (by simp)

/-- Where a text begins with the key of the expression, it can be read in no other way. -/
def Readable (d : Expr ν) : Prop :=
  ∀ {e : Expr ν} {s t : List Char}, e.WellNamed → Follows s → Follows t →
    d.key.toList ++ s = e.key.toList ++ t → d.Reordered e ∧ s = t

/-- The same for arguments after the first one, up to the parenthesis that closes them. -/
def ReadableList (as : List (Expr ν)) : Prop :=
  ∀ {bs : List (Expr ν)} {s t : List Char}, WellNamedList bs →
    furtherText as ++ ')' :: s = furtherText bs ++ ')' :: t → ReorderedList as bs ∧ s = t

theorem lead_eq_of_key_append_eq [NumeralTexts ν] {d e : Expr ν} {s t : List Char}
    (hd : d.WellNamed) (he : e.WellNamed) (hs : Follows s) (ht : Follows t)
    (h : d.key.toList ++ s = e.key.toList ++ t) : d.lead = e.lead :=
  Option.some.inj ((hd.leadOf?_key hs).symm.trans ((congrArg leadOf? h).trans (he.leadOf?_key ht)))

theorem readableList_nil : ReadableList ([] : List (Expr ν)) := by
  intro bs s t _ h
  cases bs with
  | nil => exact ⟨.nil, (List.cons.inj h).2⟩
  | cons e rest => exact absurd (List.cons.inj h).1 (by decide)

theorem ReadableList.cons {d : Expr ν} {as : List (Expr ν)} (hd : d.Readable)
    (has : ReadableList as) : ReadableList (d :: as) := by
  intro bs s t hbs h
  cases bs with
  | nil => exact absurd (List.cons.inj h).1 (by decide)
  | cons e bs =>
    rw [WellNamedList] at hbs
    simp only [furtherText, List.cons_append, List.append_assoc, List.cons.injEq, true_and] at h
    obtain ⟨hde, hrest⟩ := hd hbs.1 (follows_furtherText as s) (follows_furtherText bs t) h
    obtain ⟨hlist, hst⟩ := has hbs.2 hrest
    exact ⟨.cons hde hlist, hst⟩

/-- The first argument is read like a further one. -/
theorem ReadableList.argumentText [NumeralTexts ν] {as bs : List (Expr ν)} {s t : List Char}
    (has : ReadableList as) (hla : WellNamedList as) (hbs : WellNamedList bs)
    (h : argumentText as ++ ')' :: s = argumentText bs ++ ')' :: t) :
    ReorderedList as bs ∧ s = t := by
  have closes {e : Expr ν} (he : e.WellNamed) {u v : List Char} (hu : Follows u) :
      e.key.toList ++ u ≠ ')' :: v := by
    intro heq
    have hlead := he.leadOf?_key hu
    rw [heq] at hlead
    cases hlead
  cases as with
  | nil =>
    cases bs with
    | nil => exact ⟨.nil, (List.cons.inj h).2⟩
    | cons e bs =>
      rw [WellNamedList] at hbs
      simp only [Expr.argumentText, List.nil_append, List.append_assoc] at h
      exact absurd h.symm (closes hbs.1 (follows_furtherText bs t))
  | cons d as =>
    cases bs with
    | nil =>
      rw [WellNamedList] at hla
      simp only [Expr.argumentText, List.nil_append, List.append_assoc] at h
      exact absurd h (closes hla.1 (follows_furtherText as s))
    | cons e bs =>
      refine has hbs ?_
      simpa [furtherText, Expr.argumentText] using h

theorem readable_number [NumeralTexts ν] (value : ν) (text : String) :
    (Expr.number value text).Readable := by
  intro e s t he hs ht heq
  have hlead := lead_eq_of_key_append_eq (d := .number value text) trivial he hs ht heq
  cases e <;> simp only [lead, reduceCtorEq] at hlead
  rw [key, key] at heq
  obtain ⟨htext, hst⟩ := append_eq_append_of_stop (not_endsWord_of_mem_text _)
    (not_endsWord_of_mem_text _) hs.endsWord ht.endsWord heq
  exact ⟨.number (String.toList_injective htext), hst⟩

theorem readable_string [NumeralTexts ν] {body : String}
    (h : (Expr.string (ν := ν) body).WellNamed) : (Expr.string (ν := ν) body).Readable := by
  intro e s t he hs ht heq
  have hlead := lead_eq_of_key_append_eq h he hs ht heq
  cases e <;> simp only [lead, reduceCtorEq] at hlead
  next other =>
    rw [WellNamed] at h he
    have htext : body.toList ++ '"' :: s = other.toList ++ '"' :: t := by simpa [key] using heq
    have inside {w : String} (hw : '"' ∉ w.toList) : ∀ c ∈ w.toList, ¬ (c == '"') = true := by
      intro c hc hquote
      exact hw (eq_of_beq hquote ▸ hc)
    obtain ⟨hbody, hst⟩ := append_eq_append_of_stop (inside h) (inside he) (by simp) (by simp)
      htext
    obtain rfl := String.toList_injective hbody
    exact ⟨.string body, (List.cons.inj hst).2⟩

/-! ### Words with and without arguments -/

omit [Arithmetic ν] in
theorem WellNamed.of_application {e : Expr ν} (h : e.WellNamed) {w : String} {args : List (Expr ν)}
    (happ : e.application? = some (w, args)) : IsWord w.toList ∧ WellNamedList args := by
  cases e <;> simp only [application?, Option.some.injEq, Prod.mk.injEq, reduceCtorEq] at happ
  all_goals
    obtain ⟨rfl, rfl⟩ := happ
    rw [WellNamed] at h
  · exact ⟨h.1.word, h.2.2⟩
  · exact ⟨Intrinsic.isWord_name _, h⟩
  · exact ⟨h.1.word, h.2⟩

/-- The word tells elements, intrinsic functions and user functions apart. -/
theorem reordered_of_application {d e : Expr ν} {w : String} {as bs : List (Expr ν)}
    (hd : d.WellNamed) (he : e.WellNamed) (hdapp : d.application? = some (w, as))
    (heapp : e.application? = some (w, bs)) (h : ReorderedList as bs) : d.Reordered e := by
  have intrinsic_ne_variable {f : Intrinsic} {n : Name} (hn : Intrinsic.ofName? n.key = none)
      (hkey : f.name = n.key) : False := by
    rw [← hkey, f.ofName?_name] at hn
    cases hn
  have intrinsic_ne_function {f : Intrinsic} {n : Name} (hn : n.IsFunction)
      (hkey : f.name = n.key) : False :=
    f.not_marked_name (hkey ▸ hn.marked)
  have variable_ne_function {m n : Name} (hm : m.IsVariable) (hn : n.IsFunction)
      (hkey : m.key = n.key) : False :=
    hm.not_marked (hkey ▸ hn.marked)
  cases d <;> simp only [application?, Option.some.injEq, Prod.mk.injEq, reduceCtorEq] at hdapp <;>
    cases e <;> simp only [application?, Option.some.injEq, Prod.mk.injEq, reduceCtorEq] at heapp
  all_goals
    obtain ⟨hdw, rfl⟩ := hdapp
    obtain ⟨hew, rfl⟩ := heapp
    have hkey := hdw.trans hew.symm
    simp only [WellNamed] at hd he
  case element.element => exact .element hkey h
  case element.intrinsic => exact (intrinsic_ne_variable hd.2.1 hkey.symm).elim
  case element.call => exact (variable_ne_function hd.1 he.1 hkey).elim
  case intrinsic.element => exact (intrinsic_ne_variable he.2.1 hkey).elim
  case intrinsic.intrinsic f _ g _ =>
    have hfg : some f = some g := by rw [← f.ofName?_name, hkey, g.ofName?_name]
    obtain rfl := Option.some.inj hfg
    exact .intrinsic f h
  case intrinsic.call => exact (intrinsic_ne_function he.1 hkey).elim
  case call.element => exact (variable_ne_function he.1 hd.1 hkey.symm).elim
  case call.intrinsic => exact (intrinsic_ne_function hd.1 hkey.symm).elim
  case call.call => exact .call hkey h

/-- A word alone is not continued like a word with arguments. -/
theorem name_append_ne_application {name : Name} (hname : name.IsVariable) {e : Expr ν}
    (he : e.WellNamed) {w : String} {args : List (Expr ν)} (happ : e.application? = some (w, args))
    {s t : List Char} (hs : Follows s) : name.key.toList ++ s ≠ e.key.toList ++ t := by
  intro heq
  rw [key_application happ, List.append_assoc] at heq
  obtain ⟨-, hst⟩ := append_eq_append_of_stop hname.word.inside (he.of_application happ).1.inside
    hs.endsWord (by simp; rfl) heq
  rcases hs '(' (by simp [hst]) with h | h | h <;> exact absurd h (by decide)

omit [Arithmetic ν] in
theorem exists_scalar_of_application {e : Expr ν} (hlead : e.lead = .word)
    (happ : e.application? = none) : ∃ name, e = .scalar name := by
  cases e <;> simp only [lead, application?, reduceCtorEq] at hlead happ
  exact ⟨_, rfl⟩

theorem readable_scalar [NumeralTexts ν] {name : Name} (h : (Expr.scalar (ν := ν) name).WellNamed) :
    (Expr.scalar (ν := ν) name).Readable := by
  intro e s t he hs ht heq
  have hlead := lead_eq_of_key_append_eq h he hs ht heq
  rw [WellNamed] at h
  rw [key] at heq
  rcases happ : e.application? with _ | ⟨w, args⟩
  · obtain ⟨other, rfl⟩ := exists_scalar_of_application hlead.symm happ
    rw [WellNamed] at he
    rw [key] at heq
    obtain ⟨hkey, hst⟩ :=
      append_eq_append_of_stop h.word.inside he.word.inside hs.endsWord ht.endsWord heq
    exact ⟨.scalar (String.toList_injective hkey), hst⟩
  · exact absurd heq (name_append_ne_application h he happ hs)

theorem readable_application [NumeralTexts ν] {d : Expr ν} (h : d.WellNamed) {w : String}
    {as : List (Expr ν)} (happ : d.application? = some (w, as)) (has : ReadableList as) :
    d.Readable := by
  intro e s t he hs ht heq
  have hlead : e.lead = .word := by
    rw [← lead_eq_of_key_append_eq h he hs ht heq]
    cases d <;> first | rfl | cases happ
  rcases heapp : e.application? with _ | ⟨w', bs⟩
  · obtain ⟨other, rfl⟩ := exists_scalar_of_application hlead heapp
    rw [WellNamed] at he
    rw [key.eq_def (.scalar other)] at heq
    exact absurd heq.symm (name_append_ne_application he h happ ht)
  · rw [key_application happ, key_application heapp, List.append_assoc, List.append_assoc] at heq
    obtain ⟨hw, hargs⟩ := append_eq_append_of_stop (h.of_application happ).1.inside
      (he.of_application heapp).1.inside (by simp; rfl) (by simp; rfl) heq
    obtain rfl := String.toList_injective hw
    have hargs : argumentText as ++ ')' :: s = argumentText bs ++ ')' :: t := by
      simpa using hargs
    obtain ⟨hlist, hst⟩ :=
      has.argumentText (h.of_application happ).2 (he.of_application heapp).2 hargs
    exact ⟨reordered_of_application h he happ heapp hlist, hst⟩

/-! ### Operators -/

theorem not_endsWord_of_mem_symbol (op : BinaryOp) : ∀ c ∈ op.symbol.toList, ¬ endsWord c := by
  cases op <;> exact not_endsWord_of_all (by decide)

theorem symbol_injective {op op' : BinaryOp} (h : op.symbol.toList = op'.symbol.toList) :
    op = op' := by
  have hfind (op : BinaryOp) : BinaryOp.ofSymbol? op.symbol = some op := by cases op <;> rfl
  have hsome : some op = some op' := by
    rw [← hfind op, String.toList_injective h, hfind op']
  exact Option.some.inj hsome

/-- A minus sign in front of a number is not a sign of its own, unless the number has one. -/
theorem leadOf?_tail_text [NumeralTexts ν] {v : ν} {s t : List Char}
    (h : '-' :: s = (Arithmetic.text v).toList ++ t) :
    leadOf? s = some .numeral ∧ ∃ w, s = w ++ t ∧ ∀ c ∈ w, ¬ endsWord c := by
  rcases NumeralTexts.text_cases v with hv | hv
  · obtain ⟨c, rest, hs | hs, hc⟩ := hv.begins <;> rw [hs] at h
    · obtain ⟨rfl, -⟩ := List.cons.inj h
      exact absurd hc (by simp [BeginsNumeral])
    · obtain rfl : s = c :: rest ++ t := (List.cons.inj h).2
      refine ⟨leadOf?_of_beginsNumeral hc _, c :: rest, rfl, fun d hd => ?_⟩
      exact hv.inside d (hs ▸ List.mem_cons_of_mem _ hd)
  · rw [hv] at h
    exact absurd (List.cons.inj h).1 (by decide)

/-- An operator in front of its operand is not read as one between two operands. -/
theorem unary_append_ne_binary [NumeralTexts ν] {op : UnaryOp} {operand left : Expr ν}
    (ho : operand.WellNamed) (hl : left.WellNamed) {s t : List Char} :
    op.symbol.toList ++ (operand.key.toList ++ ')' :: s) ≠ left.key.toList ++ ' ' :: t := by
  intro heq
  have hleft := hl.leadOf?_key (follows_cons (.inl rfl) t)
  cases op with
  | neg =>
    -- the left operand would be a negative number, and the operand that number without its sign
    have heq : '-' :: (operand.key.toList ++ ')' :: s) = left.key.toList ++ ' ' :: t := heq
    have hnumeral : left.lead = .numeral := by
      rw [← heq] at hleft
      exact (Option.some.inj hleft).symm
    cases left <;> simp only [lead, reduceCtorEq] at hnumeral
    next value text =>
      rw [key] at heq
      obtain ⟨hlead, w, hw, hinside⟩ := leadOf?_tail_text heq
      have hoperand : operand.lead = .numeral := by
        rw [ho.leadOf?_key (follows_cons (.inr (.inr rfl)) s)] at hlead
        exact Option.some.inj hlead
      cases operand <;> simp only [lead, reduceCtorEq] at hoperand
      rw [key] at hw
      have hst := (append_eq_append_of_stop (not_endsWord_of_mem_text _) hinside (by simp; rfl)
        (by simp; rfl) hw).2
      exact absurd (List.cons.inj hst).1 (by decide)
  | not =>
    -- the left operand would be a variable of this name, or the name of a function
    have heq : ['N', 'O', 'T'] ++ ' ' :: (operand.key.toList ++ ')' :: s) =
      left.key.toList ++ ' ' :: t := heq
    have hword : left.lead = .word := by
      rw [← heq] at hleft
      exact (Option.some.inj hleft).symm
    have hnot : ∀ c ∈ ['N', 'O', 'T'], ¬ endsWord c := not_endsWord_of_all (by decide)
    rcases happ : left.application? with _ | ⟨w, args⟩
    · obtain ⟨name, rfl⟩ := exists_scalar_of_application hword happ
      rw [WellNamed] at hl
      rw [key] at heq
      have hkey :=
        (append_eq_append_of_stop hnot hl.word.inside (by simp; rfl) (by simp; rfl) heq).1
      exact hl.ne_not (String.toList_injective hkey.symm)
    · rw [key_application happ, List.append_assoc] at heq
      have hst := (append_eq_append_of_stop hnot (hl.of_application happ).1.inside (by simp; rfl)
        (by simp; rfl) heq).2
      exact absurd (List.cons.inj hst).1 (by decide)

theorem WellNamed.inKeyOrder {op : BinaryOp} {left right : Expr ν}
    (h : (Expr.binary op left right).WellNamed) :
    (inKeyOrder op left right).1.WellNamed ∧ (inKeyOrder op left right).2.WellNamed := by
  rw [WellNamed] at h
  rw [Expr.inKeyOrder]
  split
  · exact h.symm
  · exact h

theorem readable_unary [NumeralTexts ν] {op : UnaryOp} {operand : Expr ν} (h : operand.WellNamed)
    (hoperand : operand.Readable) : (Expr.unary op operand).Readable := by
  intro e s t he hs ht heq
  have hlead := lead_eq_of_key_append_eq (d := .unary op operand) h he hs ht heq
  rw [key_unary] at heq
  cases e <;> simp only [lead, reduceCtorEq] at hlead
  case unary op' operand' =>
    rw [WellNamed] at he
    rw [key_unary] at heq
    simp only [List.cons_append, List.append_assoc, List.cons.injEq, true_and] at heq
    have hop : op = op' := by
      cases op <;> cases op' <;> first | rfl | exact absurd (List.cons.inj heq).1 (by decide)
    subst hop
    obtain ⟨hreordered, hst⟩ := hoperand he (follows_cons (.inr (.inr rfl)) s)
      (follows_cons (.inr (.inr rfl)) t) (List.append_cancel_left heq)
    exact ⟨.unary op hreordered, (List.cons.inj hst).2⟩
  case binary op' left right =>
    have hl := he.inKeyOrder.1
    rw [key_binary] at heq
    simp only [List.cons_append, List.append_assoc, List.cons.injEq, true_and] at heq
    exact absurd heq (unary_append_ne_binary h hl)

theorem inKeyOrder_eq (op : BinaryOp) (left right : Expr ν) :
    inKeyOrder op left right = (left, right) ∨
      op.isCommutative ∧ inKeyOrder op left right = (right, left) := by
  rw [inKeyOrder]
  split
  next h =>
    rw [Bool.and_eq_true] at h
    exact .inr ⟨h.1, rfl⟩
  next => exact .inl rfl

theorem readable_binary [NumeralTexts ν] {op : BinaryOp} {left right : Expr ν}
    (h : (Expr.binary op left right).WellNamed) (hleft : left.Readable) (hright : right.Readable) :
    (Expr.binary op left right).Readable := by
  intro e s t he hs ht heq
  have hlead := lead_eq_of_key_append_eq h he hs ht heq
  rw [key_binary] at heq
  cases e <;> simp only [lead, reduceCtorEq] at hlead
  case unary op' operand =>
    rw [key_unary] at heq
    simp only [List.cons_append, List.append_assoc, List.cons.injEq, true_and] at heq
    rw [WellNamed] at he
    exact absurd heq.symm (unary_append_ne_binary he h.inKeyOrder.1)
  case binary op' left' right' =>
    have hread : (inKeyOrder op left right).1.Readable ∧ (inKeyOrder op left right).2.Readable := by
      rcases inKeyOrder_eq op left right with horder | ⟨-, horder⟩ <;> rw [horder]
      · exact ⟨hleft, hright⟩
      · exact ⟨hright, hleft⟩
    rw [key_binary] at heq
    simp only [List.cons_append, List.append_assoc, List.cons.injEq, true_and] at heq
    obtain ⟨hfirst, hrest⟩ := hread.1 he.inKeyOrder.1 (follows_cons (.inl rfl) _)
      (follows_cons (.inl rfl) _) heq
    obtain ⟨hsymbol, hrest⟩ := append_eq_append_of_stop (not_endsWord_of_mem_symbol op)
      (not_endsWord_of_mem_symbol op') (by simp; rfl) (by simp; rfl) (List.cons.inj hrest).2
    obtain rfl := symbol_injective hsymbol
    obtain ⟨hsecond, hst⟩ := hread.2 he.inKeyOrder.2 (follows_cons (.inr (.inr rfl)) s)
      (follows_cons (.inr (.inr rfl)) t) (List.cons.inj hrest).2
    refine ⟨?_, (List.cons.inj hst).2⟩
    rcases inKeyOrder_eq op left right with hl | ⟨hop, hl⟩ <;>
      rcases inKeyOrder_eq op left' right' with hr | ⟨hop', hr⟩ <;>
      rw [hl, hr] at hfirst hsecond
    · exact .binary op hfirst hsecond
    · exact .swapped hop' hfirst hsecond
    · exact .swapped hop hsecond hfirst
    · exact .binary op hsecond hfirst

/-! ### All expressions -/

mutual

theorem WellNamed.readable [NumeralTexts ν] : ∀ {e : Expr ν}, e.WellNamed → e.Readable
  | .number value text, _ => readable_number value text
  | .string _, h => readable_string h
  | .scalar _, h => readable_scalar h
  | .element name subscripts, h => by
    have hargs := h
    rw [WellNamed] at hargs
    exact readable_application h rfl (WellNamedList.readable hargs.2.2)
  | .unary op operand, h => by
    rw [WellNamed] at h
    exact readable_unary h h.readable
  | .binary op left right, h => by
    have hoperands := h
    rw [WellNamed] at hoperands
    exact readable_binary h hoperands.1.readable hoperands.2.readable
  | .intrinsic f args, h => by
    have hargs := h
    rw [WellNamed] at hargs
    exact readable_application h rfl (WellNamedList.readable hargs)
  | .call name args, h => by
    have hargs := h
    rw [WellNamed] at hargs
    exact readable_application h rfl (WellNamedList.readable hargs.2)

theorem WellNamedList.readable [NumeralTexts ν] :
    ∀ {es : List (Expr ν)}, WellNamedList es → ReadableList es
  | [], _ => readableList_nil
  | e :: rest, h => by
    rw [WellNamedList] at h
    exact ReadableList.cons h.1.readable (WellNamedList.readable h.2)

end

/-- Well-named expressions with the same key are equal up to the order of operands. -/
theorem reordered_of_wellNamed [NumeralTexts ν] {d e : Expr ν} (hd : d.WellNamed)
    (he : e.WellNamed) (h : d.key = e.key) : d.Reordered e :=
  (hd.readable he follows_nil follows_nil (by rw [h])).1

theorem reordered_of_key_eq [NumeralTexts ν] {d e : Expr ν} (hd : d.Legible) (he : e.Legible)
    (h : d.key = e.key) : d.Reordered e :=
  reordered_of_wellNamed hd.wellNamed he.wellNamed h

/-! ## The key of reordered expressions -/

theorem key_binary_comm {op : BinaryOp} (hop : op.isCommutative) (left right : Expr ν) :
    (Expr.binary op left right).key = (Expr.binary op right left).key := by
  rw [key, key]
  simp only [hop, Bool.true_and, decide_eq_true_eq]
  by_cases hless : right.key < left.key
  · rw [if_pos hless, if_neg (String.lt_asymm hless)]
  · by_cases hgreater : left.key < right.key
    · rw [if_neg hless, if_pos hgreater]
    · rw [String.le_antisymm (String.not_lt.1 hless) (String.not_lt.1 hgreater)]

mutual

/-- Expressions that are equal up to the order of operands have the same key. -/
theorem ReorderedBy.key_eq {same : ν → ν → Prop}
    (hsame : ∀ v w, same v w → Arithmetic.text v = Arithmetic.text w) :
    ∀ {d e : Expr ν}, ReorderedBy same d e → d.key = e.key
  | _, _, .number h => by rw [key, key, hsame _ _ h]
  | _, _, .string _ => rfl
  | _, _, .scalar h => by rw [key, key, h]
  | _, _, .element hkey hargs => by rw [key, key, hkey, ReorderedListBy.keyList_eq hsame hargs]
  | _, _, .unary op h => by rw [key, key, ReorderedBy.key_eq hsame h]
  | _, _, .binary op hleft hright => by
    rw [key, key, ReorderedBy.key_eq hsame hleft, ReorderedBy.key_eq hsame hright]
  | .binary op c d, .binary _ e f, .swapped hop hleft hright => by
    rw [key_binary_comm hop, key, key, ReorderedBy.key_eq hsame hleft,
      ReorderedBy.key_eq hsame hright]
  | _, _, .intrinsic f hargs => by rw [key, key, ReorderedListBy.keyList_eq hsame hargs]
  | _, _, .call hkey hargs => by rw [key, key, hkey, ReorderedListBy.keyList_eq hsame hargs]

theorem ReorderedListBy.keyList_eq {same : ν → ν → Prop}
    (hsame : ∀ v w, same v w → Arithmetic.text v = Arithmetic.text w) :
    ∀ {ds es : List (Expr ν)}, ReorderedListBy same ds es → keyList ds = keyList es
  | _, _, .nil => rfl
  | _, _, .cons hfirst hrest => by
    rw [keyList, keyList, ReorderedBy.key_eq hsame hfirst, ReorderedListBy.keyList_eq hsame hrest]

end

end Expr
end LineBasic
