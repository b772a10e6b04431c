import LineBasic.Number.Integers
import LineBasic.Proofs.Expr.Reading
import LineBasic.Proofs.Range.Interval

/-!
# Values in intervals

Where the scalars of an expression are in the intervals of their states, the numbers that the
expression may have are integers in its interval. This is so of any reading of the expression in an
arithmetic that is exact on integers (`Expr.BoundedReading.admitted`), and so of what it denotes in
a memory (`Expr.admitted_of_denotes`).
-/

namespace LineBasic

section

variable {ν : Type} [Arithmetic ν]

/-- The number is an integer in the interval. -/
def Interval.Admits (i : Interval) (n : ν) : Prop := ∃ a ∈ i, n = Arithmetic.ofInt a

/-- If there is an interval, the value is an integer in it, or no number. -/
def Value.AdmittedBy (v : Value ν) (interval : Option Interval) : Prop :=
  ∀ i n, interval = some i → v = .number n → i.Admits n

theorem Interval.Admits.ofInt {i : Interval} {a : Int} (h : a ∈ i) :
    i.Admits (Arithmetic.ofInt a : ν) := ⟨a, h, rfl⟩

theorem Value.admittedBy_none (v : Value ν) : v.AdmittedBy none := nofun

theorem Value.admittedBy_some_iff {n : ν} {i : Interval} :
    (Value.number n).AdmittedBy (some i) ↔ i.Admits n :=
  ⟨fun h => h i n rfl rfl, fun h _ _ hi hn => Option.some.inj hi ▸ Value.number.inj hn ▸ h⟩

theorem Interval.admits_truth (b : Bool) : Interval.truth.Admits (Arithmetic.truth b : ν) := by
  cases b with
  | true => exact .ofInt (mem_truth_iff.2 (.inl rfl))
  | false => exact .ofInt (mem_truth_iff.2 (.inr rfl))

theorem Value.eq_of_ofFinite? {n m : ν} (h : Value.ofFinite? n = some (.number m)) : m = n :=
  (Value.number.inj (Option.some.inj (Option.ite_none_right_eq_some.1 h).2)).symm

/-- A comparison is a truth value, whatever is compared. -/
theorem BinaryOp.admits_truth {op : BinaryOp} {v w : Value ν} {m : ν} (hop : op.isRelational = true)
    (hm : op.result? v w = some (.number m)) : Interval.truth.Admits m := by
  have truth (b : Bool) (h : Value.truth b = .number m) : Interval.truth.Admits m :=
    Value.number.inj h ▸ Interval.admits_truth b
  cases v <;> cases w <;> cases op <;>
    first
      | exact absurd hop Bool.false_ne_true
      | cases hm; done
      | exact truth _ (Option.some.inj hm)

end

section Operators

variable {ν : Type} [Arithmetic ν] [ExactIntegers ν] {k : Interval} {left right : Option Interval}
  {v w : Value ν} {n m : ν}

/-! ## Operators -/

theorem UnaryOp.admits_result? {op : UnaryOp} {operand : Option Interval}
    (h : op.interval? operand = some k) (hn : (Value.number n).AdmittedBy operand)
    (hm : op.result? n = some m) : k.Admits m := by
  cases op with
  | neg =>
    obtain ⟨i, rfl, hk⟩ := Option.bind_eq_some_iff.1 h
    obtain ⟨a, ha, rfl⟩ := Value.admittedBy_some_iff.1 hn
    obtain rfl := Option.some.inj hm
    rw [ExactIntegers.neg_ofInt]
    exact .ofInt (Interval.mem_negation? hk ha)
  | not =>
    obtain ⟨i, rfl, hk⟩ := Option.bind_eq_some_iff.1 h
    obtain ⟨a, ha, rfl⟩ := Value.admittedBy_some_iff.1 hn
    obtain ⟨w, hw, rfl⟩ := Option.map_eq_some_iff.1 hm
    obtain ⟨-, rfl⟩ := Arithmetic.word?_ofInt_eq_some_iff.1 hw
    exact .ofInt (Interval.mem_complement? hk ha)

/-- The operands of these operators are words. -/
theorem BinaryOp.exists_words {op : BinaryOp} (hop : op.takesWords) {a b : Int}
    (hm : op.applyNumbers? (Arithmetic.ofInt a : ν) (Arithmetic.ofInt b) = some (.number m)) :
    Arithmetic.IsWord16 a ∧ Arithmetic.IsWord16 b ∧
      ∃ c, op.applyWords? a b = some c ∧ m = Arithmetic.ofInt c := by
  rw [applyNumbers?_words hop] at hm
  simp only [Option.bind_eq_some_iff, Arithmetic.word?_ofInt_eq_some_iff] at hm
  obtain ⟨_, ⟨ha, rfl⟩, _, ⟨hb, rfl⟩, c, hc, h⟩ := hm
  exact ⟨ha, hb, c, hc, (Value.number.inj (Option.some.inj h)).symm⟩

/-- The value of an operator on integers. -/
theorem BinaryOp.admits_applyNumbers? {op : BinaryOp} {i j : Interval} {a b : Int}
    (hop : op.isRelational = false) (h : op.interval? (some i) (some j) = some k) (ha : a ∈ i)
    (hb : b ∈ j)
    (hm : op.applyNumbers? (Arithmetic.ofInt a : ν) (Arithmetic.ofInt b) = some (.number m)) :
    k.Admits m := by
  have logical (hop : op.isLogical = true) (h : i.logical? op j = some k) : k.Admits m := by
    obtain ⟨hwa, hwb, c, hc, rfl⟩ := exists_words (takesWords_of_isLogical hop) hm
    rw [applyWords?_of_isLogical hop] at hc
    exact Option.some.inj hc ▸ .ofInt (Interval.mem_logical? h ha hb hwa hwb)
  cases op
  case add =>
    rw [Value.eq_of_ofFinite? hm, ExactIntegers.add_ofInt]
    exact .ofInt (Interval.mem_sum? h ha hb)
  case sub =>
    rw [Value.eq_of_ofFinite? hm, ExactIntegers.sub_ofInt]
    exact .ofInt (Interval.mem_difference? h ha hb)
  case mul =>
    rw [Value.eq_of_ofFinite? hm, ExactIntegers.mul_ofInt]
    exact .ofInt (Interval.mem_product? h ha hb)
  case intDiv =>
    obtain ⟨-, -, c, hc, rfl⟩ := exists_words rfl hm
    rw [← Option.some.inj (Option.ite_none_left_eq_some.1 hc).2]
    exact .ofInt (Interval.mem_quotient? h ha hb)
  case mod =>
    obtain ⟨-, -, c, hc, rfl⟩ := exists_words rfl hm
    rw [← Option.some.inj (Option.ite_none_left_eq_some.1 hc).2]
    exact .ofInt (Interval.mem_remainder? h ha hb)
  case and | or | xor | eqv | imp => exact logical rfl h
  case pow | div => cases h
  case eq | ne | lt | le | gt | ge => cases hop

theorem BinaryOp.admits_result? {op : BinaryOp} (h : op.interval? left right = some k)
    (hv : v.AdmittedBy left) (hw : w.AdmittedBy right)
    (hm : op.result? v w = some (.number m)) : k.Admits m := by
  cases hop : op.isRelational with
  | true =>
    rw [interval?, if_pos hop] at h
    exact Option.some.inj h ▸ admits_truth hop hm
  | false =>
    have hk := h
    rw [interval?, hop, if_neg Bool.false_ne_true] at h
    simp only [bind, Option.bind_eq_some_iff] at h
    obtain ⟨i, rfl, j, rfl, -⟩ := h
    cases v with
    | number x =>
      cases w with
      | number y =>
        obtain ⟨a, ha, rfl⟩ := Value.admittedBy_some_iff.1 hv
        obtain ⟨b, hb, rfl⟩ := Value.admittedBy_some_iff.1 hw
        exact admits_applyNumbers? hop hk ha hb hm
      | string u => cases hm
    | string s =>
      cases w with
      | number y => cases hm
      | string u => cases op <;> first | exact absurd hop (by decide) | cases hm

/-! ## Functions -/

namespace Intrinsic

variable {f : Intrinsic} {values : List (Value ν)} {args : List (Option Interval)}

omit [ExactIntegers ν] in
/-- A function that gives a number is one of a number, or the length or first code of a string. -/
theorem result?_number_cases (h : f.result? values = some (.number m)) :
    (∃ n, values = [.number n] ∧ f.applyNumber? n = some (.number m)) ∨
      ∃ s : String, values = [.string s] ∧
        (f = len ∧ m = Arithmetic.ofInt s.length ∨
          f = asc ∧ ∃ c ∈ s.toList, m = Arithmetic.ofInt c.toNat) := by
  unfold result? at h
  split at h
  next n => exact .inl ⟨n, rfl, h⟩
  next s =>
    refine .inr ⟨s, rfl, ?_⟩
    split at h
    · exact .inl ⟨rfl, Value.eq_of_ofFinite? h⟩
    · obtain ⟨c, hc, h⟩ := Option.map_eq_some_iff.1 h
      exact .inr ⟨rfl, c, List.mem_of_head? hc, (Value.number.inj h).symm⟩
    · cases h
  next s n =>
    split at h
    · obtain ⟨_, _, h⟩ := Option.map_eq_some_iff.1 h
      cases h
    · obtain ⟨_, _, h⟩ := Option.map_eq_some_iff.1 h
      cases h
    · cases h
  next => cases h

/-- A function that keeps integers gives the integer that it is applied to. -/
theorem applyNumber?_ofInt (hf : f = int ∨ f = fix ∨ f = cint) {a : Int}
    (h : f.applyNumber? (Arithmetic.ofInt a : ν) = some (.number m)) : m = Arithmetic.ofInt a := by
  rcases hf with rfl | rfl | rfl
  · rw [Value.eq_of_ofFinite? h, ExactIntegers.floor_ofInt]
  · rw [Value.eq_of_ofFinite? h, ExactIntegers.whole_ofInt]
  · obtain ⟨w, hw, hm⟩ := Option.map_eq_some_iff.1 h
    obtain ⟨-, rfl⟩ := Arithmetic.word?_ofInt_eq_some_iff.1 hw
    exact (Value.number.inj hm).symm

/-- The numbers that a function gives are in its interval. -/
theorem admits_gives (h : f.interval? args = some k)
    (hargs : List.Forall₂ Value.AdmittedBy values args)
    (hlegal : ∀ s, .string s ∈ values → (Value.string s : Value ν).Legal)
    (hm : f.Gives values (.number m)) : k.Admits m := by
  have byte (hf : f.readsByte = true) (hc : f.isComputed = false) : Interval.byte.Admits m := by
    rw [Gives, hc, if_neg Bool.false_ne_true, if_pos hf] at hm
    obtain ⟨n, hnonneg, hle, hm⟩ := hm
    exact ⟨n, ⟨hnonneg, hle⟩, Value.number.inj hm⟩
  have computed (hc : f.isComputed = true) : f.result? values = some (.number m) := by
    rwa [Gives, if_pos hc] at hm
  -- the argument of a function that keeps integers
  have kept {arg : Option Interval} (hf : f = int ∨ f = fix ∨ f = cint) (hc : f.isComputed = true)
      (hlen : f ≠ len) (hasc : f ≠ asc) (hargs : List.Forall₂ Value.AdmittedBy values [arg])
      (h : arg = some k) : k.Admits m := by
    rcases result?_number_cases (computed hc) with ⟨n, rfl, hn⟩ | ⟨s, -, ⟨hf, -⟩ | ⟨hf, -⟩⟩
    · obtain ⟨a, ha, rfl⟩ := (List.forall₂_cons.1 hargs).1 k n h rfl
      exact applyNumber?_ofInt hf hn ▸ .ofInt ha
    · exact absurd hf hlen
    · exact absurd hf hasc
  unfold interval? at h
  split at h
  case h_1 =>
    obtain rfl := Option.some.inj h
    rcases result?_number_cases (computed rfl) with ⟨n, -, hn⟩ | ⟨s, rfl, ⟨-, rfl⟩ | ⟨hf, -⟩⟩
    · cases hn
    · exact .ofInt (Interval.mem_byte_of_le (hlegal _ List.mem_cons_self).1)
    · cases hf
  case h_2 =>
    obtain rfl := Option.some.inj h
    rcases result?_number_cases (computed rfl) with ⟨n, -, hn⟩ | ⟨s, rfl, ⟨hf, -⟩ | ⟨-, c, hc, rfl⟩⟩
    · cases hn
    · cases hf
    · exact .ofInt (Interval.mem_byte_of_le ((hlegal _ List.mem_cons_self).2 c hc))
  case h_3 | h_4 | h_5 | h_6 | h_7 =>
    obtain rfl := Option.some.inj h
    exact byte rfl rfl
  case h_8 =>
    obtain rfl := Option.some.inj h
    rcases result?_number_cases (computed rfl) with ⟨n, -, hn⟩ | ⟨s, -, ⟨hf, -⟩ | ⟨hf, -⟩⟩
    · rw [← Value.number.inj (Option.some.inj hn)]
      refine .ofInt ?_
      split
      · exact ⟨by decide, by decide⟩
      · split <;> exact ⟨by decide, by decide⟩
    · cases hf
    · cases hf
  case h_9 | h_10 | h_11 => exact kept (by simp) rfl (by decide) (by decide) hargs h
  case h_12 =>
    obtain ⟨i, rfl, rfl⟩ := Option.map_eq_some_iff.1 h
    rcases result?_number_cases (computed rfl) with ⟨n, rfl, hn⟩ | ⟨s, -, ⟨hf, -⟩ | ⟨hf, -⟩⟩
    · obtain ⟨a, ha, rfl⟩ := (List.forall₂_cons.1 hargs).1 i n rfl rfl
      rw [Value.eq_of_ofFinite? hn, ExactIntegers.absolute_ofInt]
      exact .ofInt (Interval.mem_absolute ha)
    · cases hf
    · cases hf
  case h_13 => cases h

end Intrinsic

end Operators

/-! ## Expressions -/

namespace Expr

section Reading

variable {ν : Type} [Arithmetic ν] {states : String → RangeState} {R : Expr Float → Value ν → Prop}

/-- A reading in which literals are in their intervals, scalars in those of their states, and
strings are legal. -/
structure BoundedReading (states : String → RangeState) (R : Expr Float → Value ν → Prop) : Prop
    extends Reading R where
  number {x : Float} {written : String} {v : Value ν} : R (.number x written) v →
    v.AdmittedBy (literalInterval? x)
  scalar {name : Name} {v : Value ν} : R (.scalar name) v →
    v.AdmittedBy (states name.key).interval?
  legal {e : Expr Float} {s : String} : R e (.string s) → (Value.string s : Value ν).Legal

mutual

/-- The numbers that an expression may have are in its interval. -/
theorem BoundedReading.admitted [ExactIntegers ν] (hR : BoundedReading states R) :
    ∀ {e : Expr Float} {v : Value ν}, R e v → v.AdmittedBy (e.interval? states)
  | .number .., _, h => hR.number h
  | .scalar _, _, h => hR.scalar h
  | .unary op operand, v, h => by
    obtain ⟨n, m, hn, hm, rfl⟩ := hR.unary h
    rintro i _ hi ⟨rfl⟩
    exact UnaryOp.admits_result? hi (hR.admitted hn) hm
  | .binary op left right, v, h => by
    obtain ⟨x, y, hx, hy, hv⟩ := hR.binary h
    rintro i m hi rfl
    exact BinaryOp.admits_result? hi (hR.admitted hx) (hR.admitted hy) hv
  | .intrinsic f args, v, h => by
    obtain ⟨values, hvalues, hv⟩ := hR.intrinsic h
    rintro i m hi rfl
    obtain ⟨hargs, hlegal⟩ := hR.admittedAll hvalues
    exact Intrinsic.admits_gives hi hargs hlegal hv
  | .string _, v, _ => v.admittedBy_none
  | .element .., v, _ => v.admittedBy_none
  | .call .., v, _ => v.admittedBy_none

theorem BoundedReading.admittedAll [ExactIntegers ν] (hR : BoundedReading states R) :
    ∀ {es : List (Expr Float)} {vs : List (Value ν)}, List.Forall₂ R es vs →
      List.Forall₂ Value.AdmittedBy vs (intervalsOfList states es) ∧
        ∀ s, .string s ∈ vs → (Value.string s : Value ν).Legal
  | [], _, h => by
    cases h
    exact ⟨.nil, nofun⟩
  | e :: rest, _, h => by
    cases h with
    | cons hfirst hrest =>
      obtain ⟨hadmitted, hlegal⟩ := hR.admittedAll hrest
      refine ⟨.cons (hR.admitted hfirst) hadmitted, fun s hs => ?_⟩
      rcases List.mem_cons.1 hs with rfl | hs
      · exact hR.legal hfirst
      · exact hlegal s hs

end

/-- An integer that is written as a literal is the only member of its interval. -/
theorem admittedBy_literalInterval? {x : Float} {n : ν}
    (h : ∀ a, Arithmetic.integer? x = some a → n = Arithmetic.ofInt a) :
    (Value.number n).AdmittedBy (literalInterval? x) := by
  rintro i m hi ⟨rfl⟩
  obtain ⟨a, ha, rfl⟩ := Option.map_eq_some_iff.1 hi
  exact ⟨a, Interval.mem_point a, h a (Option.filter_eq_some_iff.1 ha).1⟩

end Reading

/-- The numbers that an expression may have are in its interval. -/
theorem admitted_of_denotes {states : String → RangeState} {memory : Memory ℝ} {e : Expr Float}
    {v : Value ℝ}
    (hstates : ∀ read, .scalar read ∈ e.subterms →
      (memory read.key).AdmittedBy (states read.key).interval?)
    (h : e.Denotes memory v) : v.AdmittedBy (e.interval? states) := by
  have hR : BoundedReading states fun d w => d.Denotes memory w ∧ ∀ part ∈ d.subterms,
      ∀ read, part = .scalar read → (memory read.key).AdmittedBy (states read.key).interval? :=
    { toReading := (reading_denotes memory).within _
      number := by
        rintro x written _ ⟨⟨n, hn, rfl, -⟩, -⟩
        refine admittedBy_literalInterval? fun a ha => ?_
        have hvalue : LiteralValues.literal? x = some (a : ℝ) := Arithmetic.literal?_of_integer? ha
        exact Option.some.inj (hn.symm.trans hvalue)
      scalar := by
        rintro name _ ⟨⟨rfl, -⟩, hparts⟩
        exact hparts _ (List.mem_singleton_self _) name rfl
      legal := fun h => h.1.legal }
  exact hR.admitted ⟨h, fun _ hpart read heq => hstates read (heq ▸ hpart)⟩

end Expr

end LineBasic
