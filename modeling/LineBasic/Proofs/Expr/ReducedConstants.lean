import LineBasic.Proofs.Expr.AlikeValues
import LineBasic.Proofs.Expr.Runs
import LineBasic.Proofs.Expr.Subterms
import LineBasic.Proofs.Expr.Value
import LineBasic.Proofs.Number.ExactWords

/-!
# Reduction of constants

Reduction folds an expression with a value of its own to that value, up to the sign of zero, unless
it cancels a pair of `NOT` in front of a fraction (`Expr.keepsConstants_iff`): the operator rounds its
operand, so that `NOT NOT 2.5` is `3`, and the reduced expression is `2.5`
(`Expr.reduce_notNotFraction`). The proof follows a run of equal operators through the reduction
(`Expr.Run.Keeps`): pairs of signs cancel in every arithmetic, pairs of `NOT` if a third one or an
integer follows.
-/

namespace LineBasic.Expr

open Arithmetic

section

variable {ν : Type} [Arithmetic ν] {boolean : Bool} {d e x : Expr ν} {v : Value ν}

/-- Where `e` is built from literals and has a value, `d` has an alike value of its own. -/
def HasConstantOf (d e : Expr ν) : Prop :=
  ∀ v, e.constant? = some v → ∃ w, d.constant? = some w ∧ w.Alike v

/-- The expression under two `NOT`. -/
def notNot (x : Expr ν) : Expr ν := .unary .not (.unary .not x)

/-- Some part of the expression has two `NOT` in front of a fraction, and has a value. -/
def ComplementsFractionTwice (e : Expr ν) : Prop :=
  ∃ x n, notNot x ∈ e.subterms ∧ (notNot x).constant?.isSome ∧ x.constantNumber? = some n ∧
    integer? n = none

/-- Reduction keeps the values of all parts. -/
def KeepsConstants (boolean : Bool) (e : Expr ν) : Prop :=
  ∀ d ∈ e.subterms, (d.reduce boolean).1.HasConstantOf d

/-! ## Values of constants -/

theorem constantNumber?_eq_some_iff {n : ν} :
    e.constantNumber? = some n ↔ e.constant? = some (.number n) := by
  rw [constantNumber?, Option.bind_eq_some_iff]
  constructor
  · rintro ⟨v, hv, hn⟩
    cases v with
    | number m => rwa [← Option.some.inj hn]
    | string s => cases hn
  · exact fun h => ⟨_, h, rfl⟩

theorem constant?_unary_iff {op : UnaryOp} :
    (Expr.unary op x).constant? = some v ↔
      ∃ n m, x.constant? = some (.number n) ∧ op.result? n = some m ∧ v = .number m :=
  evaluate?_unary_eq_some_iff

theorem constant?_toExpr (v : Value ν) : v.toExpr.constant? = some v := by
  cases v <;> rfl

theorem HasConstantOf.refl (e : Expr ν) : e.HasConstantOf e := fun v hv => ⟨v, hv, .refl v⟩

theorem HasConstantOf.exists_number {n : ν} (h : d.HasConstantOf e)
    (he : e.constant? = some (.number n)) :
    ∃ m, d.constant? = some (.number m) ∧ Arithmetic.Alike m n := by
  obtain ⟨w, hw, halike⟩ := h _ he
  cases halike with
  | number halike => exact ⟨_, hw, halike⟩

variable [ExactWords ν]

/-- Two signs cancel. -/
theorem constant?_of_neg_neg (h : (Expr.unary .neg (.unary .neg x)).constant? = some v) :
    x.constant? = some v := by
  obtain ⟨n, m, hn, hm, rfl⟩ := constant?_unary_iff.1 h
  obtain ⟨k, n', hk, hn', hnumber⟩ := constant?_unary_iff.1 hn
  obtain rfl := Value.number.inj hnumber
  obtain rfl : -n = m := Option.some.inj hm
  obtain rfl : -k = n := Option.some.inj hn'
  rwa [ExactWords.neg_neg]

theorem isWord16_complement {k : Int} (h : IsWord16 k) : IsWord16 (-k - 1) := by
  have hlow := h.1
  have hhigh := h.2
  exact ⟨by omega, by omega⟩

/-- Two complements give the word to which the operand is rounded. -/
theorem constant?_of_notNot (h : (notNot x).constant? = some v) :
    ∃ n k, x.constant? = some (.number n) ∧ word? n = some k ∧ v = .number (Arithmetic.ofInt k) := by
  obtain ⟨n, m, hn, hm, rfl⟩ := constant?_unary_iff.1 h
  obtain ⟨a, n', ha, hn', hnumber⟩ := constant?_unary_iff.1 hn
  obtain rfl := Value.number.inj hnumber
  obtain ⟨k, hk, rfl⟩ := Option.map_eq_some_iff.1 hn'
  obtain ⟨l, hl, rfl⟩ := Option.map_eq_some_iff.1 hm
  rw [word?_ofWord (isWord16_complement (word?_eq_some_iff.1 hk).2)] at hl
  obtain rfl := Option.some.inj hl
  have hcancel : -(-k - 1) - 1 = k := by ring
  exact ⟨a, k, ha, hk, by rw [hcancel]⟩

/-- A complement is a word, so that two further ones cancel. -/
theorem constant?_of_notNot_not (h : (notNot (.unary .not x)).constant? = some v) :
    (Expr.unary .not x).constant? = some v := by
  obtain ⟨n, k, hn, hk, rfl⟩ := constant?_of_notNot h
  obtain ⟨a, m, -, hm, hnumber⟩ := constant?_unary_iff.1 hn
  obtain rfl := Value.number.inj hnumber
  obtain ⟨l, hl, rfl⟩ := Option.map_eq_some_iff.1 hm
  rw [word?_ofWord (isWord16_complement (word?_eq_some_iff.1 hl).2)] at hk
  obtain rfl := Option.some.inj hk
  exact hn

/-! ## Runs of equal operators -/

theorem constant?_of_wrap_neg {n : Nat} (h : (wrap .neg n x).constant? = some v) :
    (wrap .neg (n % 2) x).constant? = some v := by
  induction n using Nat.twoStepInduction with
  | zero => exact h
  | one => exact h
  | more n ih _ =>
    rw [Nat.add_mod_right]
    exact ih (constant?_of_neg_neg h)

theorem constant?_of_wrap_not {n : Nat} (h : (wrap .not (n + 1) x).constant? = some v) :
    (wrap .not (n % 2 + 1) x).constant? = some v := by
  induction n using Nat.twoStepInduction with
  | zero => exact h
  | one => exact h
  | more n ih _ =>
    rw [Nat.add_mod_right]
    exact ih (constant?_of_notNot_not h)

omit [Arithmetic ν] [ExactWords ν] in
theorem wrap_mem_subterms (op : UnaryOp) {k n : Nat} (h : k ≤ n) (x : Expr ν) :
    wrap op k x ∈ (wrap op n x).subterms := by
  induction h with
  | refl => exact self_mem_subterms _
  | step _ ih => exact List.mem_cons_of_mem _ ih

end

section

variable {ν : Type} [Arithmetic ν] [ZeroSigns ν] [ExactWords ν] {boolean : Bool}
  {d e x l r l' r' : Expr ν} {v : Value ν}

/-! ## Steps of the reduction -/

theorem hasConstantOf_negate (h : d.HasConstantOf x) :
    (negate d).1.HasConstantOf (.unary .neg x) := by
  intro v hv
  obtain ⟨n, m, hn, hm, rfl⟩ := constant?_unary_iff.1 hv
  obtain rfl : -n = m := Option.some.inj hm
  obtain ⟨k, hk, halike⟩ := h.exists_number hn
  have hneg : Arithmetic.Alike (-k) (-n) := ZeroSigns.neg halike
  unfold negate
  rw [constantNumber?_eq_some_iff.2 hk]
  dsimp only
  split
  next hzero =>
    -- the literal zero stands for a zero of either sign
    have hk : Arithmetic.Alike (-k) zero :=
      (ZeroSigns.neg (ExactWords.alike_of_same hzero)).trans ExactWords.neg_zero
    exact ⟨_, rfl, .number (hk.symm.trans hneg)⟩
  next => exact ⟨_, rfl, .number hneg⟩

theorem hasConstantOf_complement (h : d.HasConstantOf x) :
    (complement boolean d).1.HasConstantOf (.unary .not x) := by
  intro v hv
  obtain ⟨n, m, hn, hm, rfl⟩ := constant?_unary_iff.1 hv
  obtain ⟨k, hk, halike⟩ := h.exists_number hn
  have hm : UnaryOp.not.result? k = some m := by
    unfold UnaryOp.result? at hm ⊢
    rwa [word?_alike halike]
  unfold complement
  rw [constantNumber?_eq_some_iff.2 hk]
  dsimp only
  split
  next hzero =>
    unfold UnaryOp.result? at hm
    rw [word?_of_same ⟨by decide, by decide⟩ hzero] at hm
    exact ⟨_, rfl, by rw [← Option.some.inj hm]; rfl⟩
  next =>
    split
    next hones =>
      unfold UnaryOp.result? at hm
      rw [word?_of_same ⟨by decide, by decide⟩ hones] at hm
      exact ⟨_, rfl, by rw [← Option.some.inj hm]; rfl⟩
    next =>
      rw [hm]
      exact ⟨_, rfl, .refl _⟩

omit [ExactWords ν] in
theorem hasConstantOf_reduceBinary {op : BinaryOp} (hl : l'.HasConstantOf l)
    (hr : r'.HasConstantOf r) :
    (reduceBinary boolean op l' r').1.HasConstantOf (.binary op l r) := by
  intro v hv
  obtain ⟨a, b, ha, hb, hab⟩ := evaluate?_binary_eq_some_iff.1 hv
  obtain ⟨a', ha', haa⟩ := hl a ha
  obtain ⟨b', hb', hbb⟩ := hr b hb
  obtain ⟨w, hw, halike⟩ := (op.result?_alike haa.symm hbb.symm).exists_of_eq_some hab
  have hbefore : (Expr.binary op l' r').constant? = some w :=
    evaluate?_binary_eq_some_iff.2 ⟨a', b', ha', hb', hw⟩
  unfold reduceBinary
  dsimp only
  rw [hbefore]
  exact ⟨w, constant?_toExpr w, halike⟩

omit [ZeroSigns ν] [ExactWords ν] in
theorem forall₂_of_hasConstantOf {ds es : List (Expr ν)} (h : List.Forall₂ HasConstantOf ds es) :
    ∀ {vs : List (Value ν)}, evaluateList? (fun _ => none) es = some vs →
      ∃ ws, evaluateList? (fun _ => none) ds = some ws ∧ List.Forall₂ Value.Alike ws vs := by
  induction h with
  | nil =>
    intro vs hvs
    rw [evaluateList?] at hvs
    exact ⟨[], rfl, Option.some.inj hvs ▸ .nil⟩
  | @cons d e ds es hd _ ih =>
    intro vs hvs
    simp only [evaluateList?, bind, Option.bind_eq_some_iff, pure, Option.some.injEq] at hvs
    obtain ⟨v, hv, others, hothers, rfl⟩ := hvs
    obtain ⟨w, hw, halike⟩ := hd v hv
    obtain ⟨ws, hws, hall⟩ := ih hothers
    have hw : d.evaluate? (fun _ => none) = some w := hw
    refine ⟨w :: ws, ?_, .cons halike hall⟩
    rw [evaluateList?, hw, hws]
    rfl

omit [ExactWords ν] in
theorem hasConstantOf_intrinsic {f : Intrinsic} {ds es : List (Expr ν)}
    (h : List.Forall₂ HasConstantOf ds es) :
    ((Expr.intrinsic f ds).constant?.elim (.intrinsic f ds) Value.toExpr).HasConstantOf
      (.intrinsic f es) := by
  intro v hv
  obtain ⟨vs, hvs, hv⟩ := Option.bind_eq_some_iff.1 hv
  obtain ⟨ws, hws, hall⟩ := forall₂_of_hasConstantOf h hvs
  have hall : List.Forall₂ Value.Alike vs ws := hall.flip.imp fun _ _ h => h.symm
  obtain ⟨w, hw, halike⟩ := (f.result?_alike hall).exists_of_eq_some hv
  have hconstant : (Expr.intrinsic f ds).constant? = some w := by
    rw [constant?, evaluate?, hws]
    exact hw
  rw [hconstant]
  exact ⟨w, constant?_toExpr w, halike⟩

/-! ## Runs -/

/-- The operand of the run has the constant of the expression that is left when the operators of the
run are taken away. -/
inductive Run.Keeps (run : Run ν) : Expr ν → Prop
  | operand {e : Expr ν} : run.operator = none → run.operand.HasConstantOf e → Keeps run e
  | wrapped {op : UnaryOp} {n : Nat} {x : Expr ν} : run.operator = some (op, n + 1) →
    run.operand.HasConstantOf x → Keeps run (wrap op (n + 1) x)

omit [ZeroSigns ν] in
/-- A pair of complements in front of anything that is no fraction leaves the value. -/
theorem constant?_of_even_not {n : Nat} (heven : (n + 1) % 2 = 0)
    (hfraction : ¬ (wrap .not (n + 1) x).ComplementsFractionTwice)
    (hv : (wrap .not (n + 1) x).constant? = some v) :
    ∃ w, x.constant? = some w ∧ w.Alike v := by
  have hodd : n % 2 = 1 := by omega
  have htwice := constant?_of_wrap_not hv
  rw [hodd] at htwice
  have htwice : (notNot x).constant? = some v := htwice
  obtain ⟨m, k, hm, hk, rfl⟩ := constant?_of_notNot htwice
  have hinteger : (integer? m).isSome := by
    by_contra hnone
    refine hfraction ⟨x, m, wrap_mem_subterms .not (k := 2) (by omega) x, ?_,
      constantNumber?_eq_some_iff.2 hm, ?_⟩
    · rw [htwice]
      rfl
    · rwa [Option.not_isSome_iff_eq_none] at hnone
  exact ⟨_, hm, .number (alike_of_word? hk hinteger)⟩

theorem Run.Keeps.finish {run : Run ν} (h : run.Keeps e) (he : ¬ e.ComplementsFractionTwice) :
    (run.finish boolean).1.HasConstantOf e := by
  cases h with
  | operand hoperator hconstant =>
    unfold Run.finish
    rw [hoperator]
    exact hconstant
  | @wrapped op n x hoperator hconstant =>
    unfold Run.finish
    rw [hoperator]
    dsimp only
    split
    next heven =>
      intro v hv
      obtain ⟨u, hu, halike⟩ : ∃ u, x.constant? = some u ∧ u.Alike v := by
        cases op with
        | neg =>
          have hcancel := constant?_of_wrap_neg hv
          rw [heven] at hcancel
          exact ⟨v, hcancel, .refl v⟩
        | not => exact constant?_of_even_not heven he hv
      obtain ⟨w, hw, halike'⟩ := hconstant u hu
      exact ⟨w, hw, halike'.trans halike⟩
    next hodd =>
      intro v hv
      cases op with
      | neg =>
        have hcancel := constant?_of_wrap_neg hv
        rw [Nat.mod_two_ne_zero.1 hodd] at hcancel
        exact hasConstantOf_negate hconstant v hcancel
      | not =>
        have hcancel := constant?_of_wrap_not hv
        have heven : n % 2 = 0 := by omega
        rw [heven] at hcancel
        exact hasConstantOf_complement hconstant v hcancel

theorem Run.Keeps.extend {run : Run ν} (op : UnaryOp) (h : run.Keeps e)
    (he : ¬ e.ComplementsFractionTwice) : (run.extend boolean op).Keeps (.unary op e) := by
  have alone : Run.Keeps ⟨some (op, 1), (run.finish boolean).1, (run.finish boolean).2⟩
      (.unary op e) := .wrapped (n := 0) rfl (h.finish he)
  rw [Run.extend]
  split
  next inner n hoperator =>
    split
    next hinner =>
      subst hinner
      cases h with
      | operand hnone =>
        rw [hnone] at hoperator
        cases hoperator
      | wrapped hsome hconstant =>
        rw [hsome] at hoperator
        obtain ⟨rfl, rfl⟩ := Prod.mk.inj (Option.some.inj hoperator)
        exact .wrapped rfl hconstant
    next => exact alone
  next => exact alone

omit [ZeroSigns ν] [ExactWords ν] in
theorem ComplementsFractionTwice.of_mem (h : d.ComplementsFractionTwice) (hd : d ∈ e.subterms) :
    e.ComplementsFractionTwice := by
  obtain ⟨x, n, hx, hrest⟩ := h
  exact ⟨x, n, mem_subterms_trans hx hd, hrest⟩

mutual

theorem keeps_run (boolean : Bool) :
    ∀ {e : Expr ν}, ¬ e.ComplementsFractionTwice → (e.run boolean).Keeps e
  | .number n text, _ => by
    rw [run]
    exact .operand rfl (.refl _)
  | .string body, _ => by
    rw [run]
    exact .operand rfl (.refl _)
  | .scalar name, _ => by
    rw [run]
    exact .operand rfl (.refl _)
  | .element name subscripts, _ => by
    rw [run]
    exact .operand rfl nofun
  | .call name args, _ => by
    rw [run]
    exact .operand rfl nofun
  | .unary op operand, h => by
    have hoperand : ¬ operand.ComplementsFractionTwice := fun hbad =>
      h (hbad.of_mem (List.mem_cons_of_mem _ (self_mem_subterms operand)))
    rw [run]
    exact (keeps_run boolean hoperand).extend op hoperand
  | .binary op left right, h => by
    have hleft : ¬ left.ComplementsFractionTwice := fun hbad =>
      h (hbad.of_mem (List.mem_cons_of_mem _ (List.mem_append_left _ (self_mem_subterms left))))
    have hright : ¬ right.ComplementsFractionTwice := fun hbad =>
      h (hbad.of_mem (List.mem_cons_of_mem _ (List.mem_append_right _ (self_mem_subterms right))))
    rw [run]
    exact .operand rfl (hasConstantOf_reduceBinary ((keeps_run boolean hleft).finish hleft)
      ((keeps_run boolean hright).finish hright))
  | .intrinsic f args, h => by
    rw [run]
    refine .operand rfl (hasConstantOf_intrinsic (keeps_reduceList boolean fun e he hbad => h ?_))
    exact hbad.of_mem (List.mem_cons_of_mem _ (mem_subtermsOfList.2 ⟨e, he, self_mem_subterms e⟩))

theorem keeps_reduceList (boolean : Bool) :
    ∀ {es : List (Expr ν)}, (∀ e ∈ es, ¬ e.ComplementsFractionTwice) →
      List.Forall₂ HasConstantOf (reduceList boolean es).1 es
  | [], _ => .nil
  | e :: rest, h => by
    rw [reduceList]
    exact .cons ((keeps_run boolean (h e List.mem_cons_self)).finish (h e List.mem_cons_self))
      (keeps_reduceList boolean fun d hd => h d (List.mem_cons_of_mem _ hd))

end

/-! ## The condition is exact -/

omit [ZeroSigns ν] in
/-- The value of a fraction is not a word. -/
theorem not_alike_of_fraction {n : ν} {k : Int} (hn : integer? n = none) (hk : IsWord16 k) :
    ¬ Arithmetic.Alike n (Arithmetic.ofInt k) := by
  intro halike
  rw [ExactWords.integer?_alike halike, ExactWords.integer?_ofInt hk] at hn
  cases hn

omit [ZeroSigns ν] [ExactWords ν] in
/-- The reduced form of two complements is that of their operand, unless that is one itself. -/
theorem reduce_notNot (hx : ∀ y, x ≠ .unary .not y) :
    ((notNot x).reduce boolean).1 = (x.reduce boolean).1 := by
  unfold reduce notNot
  rw [run, run, extend_run_of_ne boolean hx]
  rfl

theorem keepsConstants_iff_not (boolean : Bool) (e : Expr ν) :
    e.KeepsConstants boolean ↔ ¬ e.ComplementsFractionTwice := by
  constructor
  · rintro h ⟨x, n, hmem, hsome, hn, hfraction⟩
    have hxmem : x ∈ (notNot x).subterms := wrap_mem_subterms .not (k := 0) (Nat.zero_le 2) x
    obtain ⟨v, hv⟩ := Option.isSome_iff_exists.1 hsome
    obtain ⟨m, k, hm, hk, rfl⟩ := constant?_of_notNot hv
    have hn := constantNumber?_eq_some_iff.1 hn
    obtain rfl : m = n := Value.number.inj (Option.some.inj (hm.symm.trans hn))
    have hword := (word?_eq_some_iff.1 hk).2
    -- a complement would be a word, and so no fraction
    have hx : ∀ y, x ≠ .unary .not y := by
      rintro y rfl
      obtain ⟨a, b, -, hb, hnumber⟩ := constant?_unary_iff.1 hn
      obtain ⟨l, hl, rfl⟩ := Option.map_eq_some_iff.1 hb
      obtain rfl := Value.number.inj hnumber
      rw [ExactWords.integer?_ofInt (isWord16_complement (word?_eq_some_iff.1 hl).2)] at hfraction
      cases hfraction
    obtain ⟨a, ha, halike⟩ := (h _ hmem).exists_number hv
    obtain ⟨b, hb, halike'⟩ := (h _ (mem_subterms_trans hxmem hmem)).exists_number hn
    rw [reduce_notNot hx, hb] at ha
    obtain rfl := Value.number.inj (Option.some.inj ha)
    exact not_alike_of_fraction hfraction hword (halike'.symm.trans halike)
  · intro h d hd
    have hd : ¬ d.ComplementsFractionTwice := fun hbad => h (hbad.of_mem hd)
    exact (keeps_run boolean hd).finish hd

end

/-! ## Floating-point numbers -/

/-- Reduction keeps the values of all parts just where no two complements meet a fraction. -/
theorem keepsConstants_iff (library : Library) (h : library.IgnoresZeroSigns) (boolean : Bool)
    (e : Expr (Machine library)) : e.KeepsConstants boolean ↔ ¬ e.ComplementsFractionTwice :=
  haveI := h.zeroSigns
  keepsConstants_iff_not boolean e

/-- So it is with the numbers that programs compute with. -/
theorem keepsConstants_float (h : Library.machine.IgnoresZeroSigns) (boolean : Bool)
    (e : Expr Float) : e.KeepsConstants boolean ↔ ¬ e.ComplementsFractionTwice :=
  haveI := h.zeroSigns
  keepsConstants_iff_not (ν := Machine .machine) boolean e

/-- The signs of a square, and complements of a length. -/
def signedSquare : Expr (Machine squaringLibrary) :=
  .binary .add
    (.unary .neg (.unary .neg
      (.intrinsic .int [.binary .pow (.number (2.5 : Float) "2.5") (.number (2 : Float) "2")])))
    (notNot (.intrinsic .len [.string "AB"]))

theorem constantNumber?_signedSquare : signedSquare.constantNumber? = some (Arithmetic.ofInt 8) := by
  decide +kernel

theorem not_complementsFractionTwice_signedSquare : ¬ signedSquare.ComplementsFractionTwice := by
  rintro ⟨x, n, hmem, -, hn, hfraction⟩
  obtain rfl : x = .intrinsic .len [.string "AB"] := by
    simpa [signedSquare, notNot, subterms, subtermsOfList] using hmem
  have htwo : (Expr.intrinsic .len [.string "AB"] : Expr (Machine squaringLibrary)).constantNumber? =
      some (2 : Float) := rfl
  obtain rfl := Option.some.inj (htwo.symm.trans hn)
  have hinteger : (integer? (2 : Float) : Option Int) = some 2 := rfl
  cases hinteger.symm.trans hfraction

theorem keepsConstants_signedSquare :
    squaringLibrary.IgnoresZeroSigns ∧ signedSquare.constantNumber? = some (Arithmetic.ofInt 8) ∧
      ¬ signedSquare.ComplementsFractionTwice ∧ signedSquare.KeepsConstants true :=
  ⟨squaringLibrary_ignoresZeroSigns, constantNumber?_signedSquare,
    not_complementsFractionTwice_signedSquare,
    (keepsConstants_iff squaringLibrary squaringLibrary_ignoresZeroSigns true signedSquare).2
      not_complementsFractionTwice_signedSquare⟩

/-- Two complements of a fraction. -/
def notNotFraction : Expr Float := notNot (.number 2.5 "2.5")

/-- The fraction is left where its complements would have rounded it. -/
theorem reduce_notNotFraction :
    notNotFraction.constantNumber? = some 3 ∧
      ∀ boolean, (notNotFraction.reduce boolean).1.constantNumber? = some 2.5 ∧
        ¬ (notNotFraction.reduce boolean).1.HasConstantOf notNotFraction := by
  have hvalue : notNotFraction.constantNumber? = some 3 := by decide +kernel
  refine ⟨hvalue, fun boolean => ?_⟩
  have hreduced : (notNotFraction.reduce boolean).1.constantNumber? = some 2.5 := by
    cases boolean <;> decide +kernel
  refine ⟨hreduced, fun h => ?_⟩
  obtain ⟨m, hm, halike⟩ := h.exists_number (constantNumber?_eq_some_iff.1 hvalue)
  obtain rfl := Option.some.inj ((constantNumber?_eq_some_iff.2 hm).symm.trans hreduced)
  rcases halike with heq | ⟨hzero, -⟩
  · revert heq
    decide +kernel
  · revert hzero
    decide +kernel

end LineBasic.Expr
