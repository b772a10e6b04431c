import LineBasic.Proofs.Grammar.Levels
import LineBasic.Proofs.Grammar.SignedNumbers

/-!
# Operands are read as they are written

What the operators join: literals, names, calls and expressions in parentheses. The text of each of
them is read as it is meant, if the expressions in its parentheses are (`Grammar.ReadsBack`).
-/

namespace LineBasic

open LineBasic.Parser

/-! ## Texts of arguments -/

namespace Expr

/-- Arguments after the first one, as typed. -/
def furtherSource : List (Expr Float) → List Char
  | [] => []
  | e :: rest => ',' :: ' ' :: (e.source.toList ++ furtherSource rest)

/-- Arguments in parentheses, as typed; none at all have no parentheses. -/
def argumentSource : List (Expr Float) → List Char
  | [] => []
  | e :: rest => '(' :: (e.source.toList ++ (furtherSource rest ++ [')']))

theorem toList_intercalate_writeList (e : Expr Float) (rest : List (Expr Float)) :
    (", ".intercalate (writeList .asTyped (e :: rest))).toList =
      e.source.toList ++ furtherSource rest := by
  induction rest generalizing e with
  | nil => simp [writeList, furtherSource, source]
  | cons d rest ih =>
    have hrest := ih d
    rw [writeList] at hrest
    rw [writeList, writeList, String.intercalate_cons_cons]
    simp [hrest, furtherSource, source]

theorem toList_callSuffix (args : List (Expr Float)) :
    (callSuffix (writeList .asTyped args)).toList = argumentSource args := by
  cases args with
  | nil => rfl
  | cons e rest =>
    have hargs := toList_intercalate_writeList e rest
    rw [writeList] at hargs
    rw [writeList, callSuffix, if_neg (by simp)]
    simp [hargs, argumentSource]

theorem source_string (body : String) :
    (Expr.string body : Expr Float).source.toList = '"' :: (body.toList ++ ['"']) := by
  rw [source, write]
  simp

theorem source_element {name : Name} {subscripts : List (Expr Float)} (h : subscripts ≠ []) :
    (Expr.element name subscripts).source.toList =
      name.text.toList ++ argumentSource subscripts := by
  obtain ⟨e, rest, rfl⟩ := List.exists_cons_of_ne_nil h
  rw [source, write, String.toList_append, String.toList_append, String.toList_append,
    toList_intercalate_writeList]
  simp [argumentSource, Spelling.name]

theorem source_intrinsic (f : Intrinsic) (args : List (Expr Float)) :
    (Expr.intrinsic f args).source.toList = f.name.toList ++ argumentSource args := by
  rw [source, write, String.toList_append, toList_callSuffix]

theorem source_call (name : Name) (args : List (Expr Float)) :
    (Expr.call name args).source.toList = name.text.toList ++ argumentSource args := by
  rw [source, write, String.toList_append, toList_callSuffix]
  rfl

theorem length_source_le_of_mem {args : List (Expr Float)} {e : Expr Float} (h : e ∈ args) :
    e.source.toList.length + 2 ≤ (argumentSource args).length := by
  have further {rest : List (Expr Float)} (h : e ∈ rest) :
      e.source.toList.length ≤ (furtherSource rest).length := by
    induction rest with
    | nil => cases h
    | cons d rest ih =>
      rw [furtherSource, List.length_cons, List.length_cons, List.length_append]
      rcases List.mem_cons.1 h with rfl | h
      · omega
      · have hrest := ih h
        omega
  cases args with
  | nil => cases h
  | cons d rest =>
    rw [argumentSource, List.length_cons, List.length_append, List.length_append]
    have hone : [')'].length = 1 := rfl
    rcases List.mem_cons.1 h with rfl | h
    · omega
    · have hrest := further h
      omega

end Expr

namespace Grammar

variable {inner : Parser (Expr Float)} {p : Nat} {s rest lead : List Char} {e first : Expr Float}
  {more args : List (Expr Float)}

/-- The text of the expression is read as it is meant, up to where every expression stops. -/
def ReadsBack (inner : Parser (Expr Float)) (e : Expr Float) : Prop :=
  ∀ ⦃lead rest : List Char⦄, IsBlank lead → Stops 1 rest →
    inner (lead ++ (e.source.toList ++ rest)) = .accepted e.reread rest

/-! ## Arguments -/

theorem symbol_open (s : List Char) : symbol "(" ('(' :: s) = .accepted "(" s := rfl

theorem symbol_close (s : List Char) : symbol ")" (')' :: s) = .accepted ")" s := rfl

theorem stops_furtherSource (more : List (Expr Float)) (rest : List Char) :
    Stops 1 (Expr.furtherSource more ++ ')' :: rest) := by
  cases more with
  | nil => exact .close _
  | cons e more => exact .comma _

theorem furtherSource_append (h : ∀ e ∈ more, ReadsBack inner e) :
    repeated (furtherStep (symbol ",") inner) (Expr.furtherSource more ++ ')' :: rest) =
      .accepted (Expr.rereadList more) (')' :: rest) := by
  induction more with
  | nil => exact repeated_furtherStep_nil (t := ')' :: rest) rfl
  | cons e more ih =>
    obtain ⟨he, hmore⟩ := List.forall_mem_cons.1 h
    have htext : Expr.furtherSource (e :: more) ++ ')' :: rest =
        ',' :: ([' '] ++ (e.source.toList ++ (Expr.furtherSource more ++ ')' :: rest))) := by
      simp [Expr.furtherSource]
    rw [htext]
    refine repeated_furtherStep_cons (b := ",") rfl
      (he isBlank_space (stops_furtherSource more rest)) ?_ (ih hmore)
    simp only [List.length_cons, List.length_append]
    omega

theorem arguments_append (hne : args ≠ []) (h : ∀ e ∈ args, ReadsBack inner e) (rest : List Char) :
    arguments inner (Expr.argumentSource args ++ rest) =
      .accepted (Expr.rereadList args) rest := by
  obtain ⟨first, more, rfl⟩ := List.exists_cons_of_ne_nil hne
  obtain ⟨hfirst, hmore⟩ := List.forall_mem_cons.1 h
  have htext : Expr.argumentSource (first :: more) ++ rest =
      '(' :: (first.source.toList ++ (Expr.furtherSource more ++ ')' :: rest)) := by
    simp [Expr.argumentSource]
  rw [htext]
  have hread := separated1_of_accepted (hfirst isBlank_nil (stops_furtherSource more rest))
    (furtherSource_append hmore)
  exact (bind_of_accepted (symbol_open _)).trans <| (bind_of_accepted hread).trans <|
    (bind_of_accepted (symbol_close rest)).trans rfl

/-- Arguments are read if there are any. -/
theorem exists_optional_arguments (h : ∀ e ∈ args, ReadsBack inner e) (hrest : Stops p rest) :
    ∃ found, optional (arguments inner) (Expr.argumentSource args ++ rest) = .accepted found rest ∧
      found.getD [] = Expr.rereadList args := by
  by_cases hne : args = []
  · rw [hne]
    exact ⟨none, optional_of_refused (bind_of_refused hrest.symbol_open), rfl⟩
  · exact ⟨some _, optional_of_accepted (arguments_append hne h rest), rfl⟩

theorem subscripts?_append (hne : args ≠ []) (h : ∀ e ∈ args, ReadsBack inner e)
    (rest : List Char) :
    subscripts? inner (Expr.argumentSource args ++ rest) =
      .accepted (some (Expr.rereadList args)) rest := by
  have hread := arguments_append hne h rest
  obtain ⟨first, more, rfl⟩ := List.exists_cons_of_ne_nil hne
  refine (bind_of_accepted (p := remaining) rfl).trans ?_
  exact (bind_of_accepted hread).trans rfl

theorem subscripts?_of_stops (h : Stops p rest) : subscripts? inner rest = .accepted none rest := by
  refine (bind_of_accepted (p := remaining) rfl).trans ?_
  have hopen := h.trimStart
  refine congrFun (g := (Pure.pure none : Parser (Option (List (Expr Float))))) ?_ rest
  split
  next heq =>
    rw [heq] at hopen
    exact absurd rfl (hopen _ rfl)
  next => rfl

theorem endsToken_argumentSource (args : List (Expr Float)) (hrest : EndsToken rest) :
    EndsToken (Expr.argumentSource args ++ rest) := by
  cases args with
  | nil => exact hrest
  | cons e args =>
    rintro _ ⟨⟩
    rfl

/-! ## Literals and parentheses -/

theorem atom_number {value : Float} {w : List Char} (h : IsNumberText w value)
    (hlead : IsBlank lead) (hrest : EndsToken rest) :
    atom inner (lead ++ (w ++ rest)) = .accepted (.number value (String.ofList w)) rest :=
  firstOf_cons_of_accepted ((bind_of_accepted (number_append h hlead hrest)).trans rfl)

/-- What begins otherwise is no number. -/
theorem numberExpr_of_head {c : Char} (hlead : IsBlank lead) (hc : ¬ Text.isBlank c)
    (hdigit : ¬ c.isDigit) (hpoint : c ≠ '.') (hmark : foldCase c ≠ '&') :
    numberExpr (lead ++ c :: s) = .refused (c :: s) := by
  refine bind_of_refused (number_of_head hlead (startsDark_cons hc) ?_)
  rintro _ ⟨⟩
  exact ⟨hdigit, hpoint, hmark⟩

theorem stringExpr_of_head {c : Char} (hlead : IsBlank lead) (hc : ¬ Text.isBlank c)
    (hquote : c ≠ '"') : stringExpr (lead ++ c :: s) = .refused (c :: s) := by
  refine map_of_refused (quoted_of_head hlead (startsDark_cons hc) ?_)
  rintro _ ⟨⟩
  exact hquote

theorem atom_string {body : String} (h : '"' ∉ body.toList) (hlead : IsBlank lead) :
    atom inner (lead ++ ('"' :: (body.toList ++ '"' :: rest))) = .accepted (.string body) rest := by
  have hnumber := numberExpr_of_head (c := '"') (s := body.toList ++ '"' :: rest) hlead (by decide)
    (by decide) (by decide) (by decide)
  refine (firstOf_cons_of_refused (by simp) hnumber).trans ?_
  exact firstOf_cons_of_accepted (map_of_accepted (quoted_append h hlead))

theorem atom_enclosed (h : ReadsBack inner e) (hlead : IsBlank lead) (rest : List Char) :
    atom inner (lead ++ ('(' :: (e.source.toList ++ ')' :: rest))) = .accepted e.reread rest := by
  have hnumber := numberExpr_of_head (c := '(') (s := e.source.toList ++ ')' :: rest) hlead
    (by decide) (by decide) (by decide) (by decide)
  have hstring := stringExpr_of_head (c := '(') (s := e.source.toList ++ ')' :: rest) hlead
    (by decide) (by decide)
  refine (firstOf_cons_of_refused (by simp) hnumber).trans ?_
  refine (firstOf_cons_of_refused (by simp) hstring).trans ?_
  refine firstOf_cons_of_accepted ?_
  have hopen : symbol "(" (lead ++ '(' :: (e.source.toList ++ ')' :: rest)) =
      .accepted "(" (e.source.toList ++ ')' :: rest) :=
    symbol_append hlead (startsDark_cons (by decide))
  refine (bind_of_accepted hopen).trans ?_
  refine (bind_of_accepted (h isBlank_nil (.close rest))).trans ?_
  exact (bind_of_accepted (symbol_close rest)).trans rfl

/-! ## Names -/

/-- Before a letter stands a call or a name. -/
theorem atom_of_isAlpha {c : Char} (hc : c.isAlpha) (hlead : IsBlank lead) :
    atom inner (lead ++ c :: s) = firstOf [userCall inner, namedExpr inner] (lead ++ c :: s) := by
  rw [isAlpha_iff] at hc
  have hblank : ¬ Text.isBlank c := by rw [Text.isBlank_iff]; omega
  have hdigit : ¬ c.isDigit := by rw [isDigit_iff]; omega
  have other (d : Char) (hd : d.toNat < 65) : c ≠ d := by
    rw [Ne, eq_iff_toNat_eq]
    omega
  have hmark : foldCase c ≠ '&' := by
    rw [foldCase_of_ascii (by omega), Ne, eq_iff_toNat_eq, toNat_toLower]
    have hand : '&'.toNat = 38 := rfl
    split <;> omega
  refine (firstOf_cons_of_refused (by simp)
    (numberExpr_of_head hlead hblank hdigit (other '.' (by decide)) hmark)).trans ?_
  refine (firstOf_cons_of_refused (by simp)
    (stringExpr_of_head hlead hblank (other '"' (by decide)))).trans ?_
  refine firstOf_cons_of_refused (by simp) (bind_of_refused ?_) (t := c :: s)
  refine symbol_of_starts (c := '(') rfl hlead (startsDark_cons hblank) ?_
  rintro _ ⟨⟩
  exact other '(' (by decide)

theorem atom_call {name : Name} (hname : IsFunctionName name) (h : ∀ e ∈ args, ReadsBack inner e)
    (hlead : IsBlank lead) (hrest : Stops p rest) :
    atom inner (lead ++ (name.text.toList ++ (Expr.argumentSource args ++ rest))) =
      .accepted (.call name (Expr.rereadList args)) rest := by
  obtain ⟨found, hfound, hargs⟩ := exists_optional_arguments h hrest
  have hread := functionName_append hname hlead (endsToken_argumentSource args hrest.endsToken)
  have hcall : userCall inner (lead ++ (name.text.toList ++ (Expr.argumentSource args ++ rest))) =
      .accepted (.call name (Expr.rereadList args)) rest := by
    rw [← hargs]
    exact (bind_of_accepted hread).trans ((bind_of_accepted hfound).trans rfl)
  obtain ⟨c, more, hc, hletter, -⟩ := hname.exists_eq_cons
  rw [hc, List.cons_append] at hcall ⊢
  rw [atom_of_isAlpha hletter hlead]
  exact firstOf_cons_of_accepted hcall

/-- A name that is no name of a user function. -/
theorem atom_of_not_begins {c : Char} (hc : c.isAlpha) (hlead : IsBlank lead)
    (h : ¬ Begins "FN" (c :: s)) :
    atom inner (lead ++ c :: s) = namedExpr inner (lead ++ c :: s) := by
  have hdark : StartsDark (c :: s) := startsDark_cons (not_isBlank_of_isAlpha hc)
  have hcall : userCall inner (lead ++ c :: s) = .refused (c :: s) :=
    bind_of_refused (functionName_of_not_begins hlead hdark h)
  rw [atom_of_isAlpha hc hlead]
  exact firstOf_cons_of_refused (by simp) hcall

theorem atom_intrinsic (f : Intrinsic) (h : ∀ e ∈ args, ReadsBack inner e) (hlead : IsBlank lead)
    (hrest : Stops p rest) :
    atom inner (lead ++ (f.name.toList ++ (Expr.argumentSource args ++ rest))) =
      .accepted (.intrinsic f (Expr.rereadList args)) rest := by
  obtain ⟨found, hfound, hargs⟩ := exists_optional_arguments h hrest
  have hends := endsToken_argumentSource args hrest.endsToken
  have hread := optional_of_accepted (intrinsicName_append f hlead hends)
  have hnamed : namedExpr inner (lead ++ (f.name.toList ++ (Expr.argumentSource args ++ rest))) =
      .accepted (.intrinsic f (Expr.rereadList args)) rest := by
    rw [← hargs]
    exact (bind_of_accepted hread).trans ((bind_of_accepted hfound).trans rfl)
  have hfn : ¬ Begins "FN" (f.name.toList ++ (Expr.argumentSource args ++ rest)) := by
    intro hbegins
    have hprefix := prefix_key_of_begins (n := ⟨f.name⟩) (by decide) isPlain_fn hends hbegins
    rw [Name.key, upper_name] at hprefix
    exact f.not_marked_name hprefix
  obtain ⟨c, more, hc, hletter⟩ := (isSpelled_name f).exists_eq_cons
  rw [hc, List.cons_append] at hnamed hfn ⊢
  rw [atom_of_not_begins hletter hlead hfn, hnamed]

/-- A variable is read with what its subscripts are read as. -/
theorem atom_of_plain {name : Name} {t : List Char} {found : Option (List (Expr Float))}
    (hname : IsPlainName name) (hlead : IsBlank lead) (hends : EndsToken s)
    (h : subscripts? inner s = .accepted found t) :
    atom inner (lead ++ (name.text.toList ++ s)) =
      .accepted (found.elim (.scalar name) (.element name)) t := by
  have hno := optional_of_refused (intrinsicName_of_plain hname hlead hends)
  have hread := variableName_append hname.spelled hname.admitted hlead hends
  have hnamed : namedExpr inner (lead ++ (name.text.toList ++ s)) =
      .accepted (found.elim (.scalar name) (.element name)) t := by
    refine (bind_of_accepted hno).trans ((bind_of_accepted hread).trans ?_)
    refine (bind_of_accepted h).trans ?_
    cases found <;> rfl
  have hfn : ¬ Begins "FN" (name.text.toList ++ s) := by
    intro hbegins
    have hprefix : ['F', 'N'] <+: name.key.toList :=
      prefix_key_of_begins (by decide) isPlain_fn hends hbegins
    have hadmitted := hname.admitted
    rw [isVariableName, Bool.and_eq_true, List.isPrefixOf_iff_prefix.2 hprefix] at hadmitted
    cases hadmitted.2
  obtain ⟨c, more, hc, hletter⟩ := hname.spelled.exists_eq_cons
  rw [hc, List.cons_append] at hnamed hfn ⊢
  rw [atom_of_not_begins hletter hlead hfn, hnamed]

end Grammar
end LineBasic
