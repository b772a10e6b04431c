import LineBasic.Proofs.Expr.EqualKeys
import LineBasic.Proofs.Grammar.Spelling

/-!
# What equal keys say

Expressions have the same key if and only if one becomes the other when operands of commutative
operators are exchanged, whatever the case of letters in names and the spelling of numbers
(`Expr.key_eq_iff_sameUpToOrder`). Expressions that are read have names and strings of the form that
this needs (`Grammar.wellNamed_of_expression`).
-/

namespace LineBasic

/-! ## Names that are read -/

namespace Grammar

theorem IsSpelled.isWord {w : List Char} (h : IsSpelled w) : IsWord w where
  letter := h.exists_eq_cons
  inside := by
    obtain ⟨hfirst, hmiddle, hsuffix⟩ := h
    intro c hc hend
    have hinner : isInner c ≠ true := by simp [not_isInner_of_endsWord hend]
    rcases List.mem_append.1 hc with hc | hc
    · rcases List.mem_cons.1 hc with rfl | hc
      · exact hinner (by simp [isInner, Char.isAlphanum, hfirst])
      · exact hinner (hmiddle c hc)
    · have hsome := hsuffix c (Option.mem_toList.1 hc)
      rw [not_suffix_of_endsWord hend] at hsome
      cases hsome

theorem IsPlainName.isVariable {n : Name} (h : IsPlainName n) : n.IsVariable :=
  ⟨h.key.spelled.isWord, h.admitted⟩

theorem IsFunctionName.isFunction {n : Name} (h : IsFunctionName n) : n.IsFunction := by
  obtain ⟨fn, w, htext, hfn, hw⟩ := h
  have hkey : n.key.toList = ['F', 'N'] ++ w.map Char.toUpper := by
    rw [Name.key, Text.upper, String.toList_map, htext, List.map_append,
      map_toUpper_of_foldCase isPlain_fn hfn]
    rfl
  refine ⟨⟨⟨'F', _, hkey, by decide⟩, fun c hc => ?_⟩, _, hkey.symm⟩
  rw [hkey, List.mem_append] at hc
  rcases hc with hc | hc
  · exact not_endsWord_of_all (by decide) c hc
  · exact hw.map_toUpper.isWord.inside c hc

end Grammar

namespace Expr

theorem wellNamedList_iff {ν : Type} {es : List (Expr ν)} :
    WellNamedList es ↔ ∀ e ∈ es, e.WellNamed := by
  induction es with
  | nil => exact ⟨fun _ => nofun, fun _ => trivial⟩
  | cons e rest ih => rw [WellNamedList, ih, List.forall_mem_cons]

theorem IsSpelled.wellNamed {e : Expr Float} (h : e.IsSpelled) : e.WellNamed := by
  induction h with
  | number => trivial
  | string hbody => exact hbody
  | scalar hname => exact hname.isVariable
  | element hname _ _ ih => exact ⟨hname.isVariable, hname.notIntrinsic, wellNamedList_iff.2 ih⟩
  | unary _ ih => exact ih
  | binary _ _ ihleft ihright => exact ⟨ihleft, ihright⟩
  | intrinsic _ ih => exact wellNamedList_iff.2 ih
  | call hname _ ih => exact ⟨hname.isFunction, wellNamedList_iff.2 ih⟩

end Expr

theorem Grammar.wellNamed_of_expression {s rest : List Char} {e : Expr Float}
    (h : expression s = .accepted e rest) : e.WellNamed :=
  (isSpelled_of_expression h).wellNamed

/-! ## Equal keys -/

namespace Expr

/-- One becomes the other when operands of commutative operators are exchanged. Names are compared
by their keys, and numbers by their value. -/
abbrev SameUpToOrder : Expr Float → Expr Float → Prop := ReorderedBy Arithmetic.Alike

theorem reordered_iff {d e : Expr Float} : d.Reordered e ↔ d.SameUpToOrder e := by
  have hsame : (fun v w : Float => Arithmetic.text v = Arithmetic.text w) = Arithmetic.Alike :=
    funext₂ fun _ _ => propext Number.text_eq_iff
  rw [Reordered, hsame]

/-- The key tells expressions apart that are not the same up to the order of operands, and no
others. -/
theorem key_eq_iff_sameUpToOrder {d e : Expr Float} (hd : d.WellNamed) (he : e.WellNamed) :
    d.key = e.key ↔ d.SameUpToOrder e := by
  rw [← reordered_iff]
  exact ⟨reordered_of_wellNamed hd he, ReorderedBy.key_eq fun _ _ h => h⟩

/-- `RATE(1) * (X + FNTAX(X))`. -/
def priceWithTax : Expr Float :=
  .binary .mul (.element ⟨"RATE"⟩ [.number 1 "1"])
    (.binary .add (.scalar ⟨"X"⟩) (.call ⟨"FNTAX"⟩ [.scalar ⟨"X"⟩]))

/-- `(fntax(x) + x) * Rate(1.0)`. -/
def taxWithPrice : Expr Float :=
  .binary .mul (.binary .add (.call ⟨"fntax"⟩ [.scalar ⟨"x"⟩]) (.scalar ⟨"x"⟩))
    (.element ⟨"Rate"⟩ [.number 1 "1.0"])

/-- Two spellings of the same product, with the operands of both operators exchanged. -/
theorem sameUpToOrder_priceWithTax :
    priceWithTax.WellNamed ∧ taxWithPrice.WellNamed ∧
      priceWithTax.key = "((FNTAX(X) + X) * RATE(1))" ∧
      priceWithTax.SameUpToOrder taxWithPrice := by
  have function {n : Name} (hkey : n.key.toList = ['F', 'N', 'T', 'A', 'X']) : n.IsFunction :=
    ⟨⟨⟨'F', _, hkey, by decide⟩, by rw [hkey]; exact not_endsWord_of_all (by decide)⟩,
      _, hkey.symm⟩
  have array {n : Name} (htext : n.text.toList.map Char.toUpper = ['R', 'A', 'T', 'E']) :
      n.IsVariable :=
    isVariable_of_key 'R' ['A', 'T', 'E'] htext rfl rfl (by decide)
  have scalar {n : Name} (htext : n.text.toList.map Char.toUpper = ['X']) : n.IsVariable :=
    isVariable_of_key 'X' [] htext rfl rfl (by decide)
  have hprice : priceWithTax.WellNamed :=
    ⟨⟨array rfl, by decide +kernel, trivial, trivial⟩,
      scalar rfl, function (by decide +kernel), scalar rfl, trivial⟩
  have htax : taxWithPrice.WellNamed :=
    ⟨⟨⟨function (by decide +kernel), scalar rfl, trivial⟩, scalar rfl⟩,
      array rfl, by decide +kernel, trivial, trivial⟩
  have hpriceKey : priceWithTax.key = "((FNTAX(X) + X) * RATE(1))" := by decide +kernel
  have htaxKey : taxWithPrice.key = "((FNTAX(X) + X) * RATE(1))" := by decide +kernel
  exact ⟨hprice, htax, hpriceKey,
    (key_eq_iff_sameUpToOrder hprice htax).1 (hpriceKey.trans htaxKey.symm)⟩

end Expr
end LineBasic
