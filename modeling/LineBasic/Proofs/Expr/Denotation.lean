import LineBasic.Number.Real
import LineBasic.Proofs.Expr.Value

/-!
# What expressions denote

`Expr.Denotes` relates an expression to the values that it may have when the scalars have the values
in a memory. Operators and the functions that are computed have the values that `Expr.evaluate?`
gives them. Array elements, user functions and the functions of the machine may have any legal
value. An expression that the interpreter would stop at denotes nothing. Where an expression is
evaluated, it denotes nothing else (`Expr.eq_of_denotes`).
-/

namespace LineBasic

/-- The values of scalars, by their keys. -/
abbrev Memory (ν : Type) := String → Value ν

variable {ν : Type} [Arithmetic ν]

/-- Strings have at most 255 characters with codes of a byte, and numbers are equal to
themselves. -/
def Value.Legal : Value ν → Prop
  | .number n => Arithmetic.same n n = true
  | .string s => s.length ≤ 255 ∧ ∀ c ∈ s.toList, c.toNat ≤ 255

instance : ∀ v : Value ν, Decidable v.Legal
  | .number n => inferInstanceAs (Decidable (Arithmetic.same n n = true))
  | .string s => inferInstanceAs (Decidable (s.length ≤ 255 ∧ ∀ c ∈ s.toList, c.toNat ≤ 255))

namespace Intrinsic

/-- The function is computed from its arguments. -/
def isComputed : Intrinsic → Bool
  | abs | asc | atn | chr | cint | cos | exp | fix | int | left | len | log | right | sgn | sin
  | sqr | tan => true
  | _ => false

/-- The function reads a byte of the machine or gives a column or a place in a string. -/
def readsByte : Intrinsic → Bool
  | peek | inp | instr | pos | lpos => true
  | _ => false

/-- The function may give this value for these arguments. -/
def Gives (f : Intrinsic) (args : List (Value ν)) (v : Value ν) : Prop :=
  if f.isComputed then f.result? args = some v
  else if f.readsByte then ∃ n : Int, 0 ≤ n ∧ n ≤ 255 ∧ v = .number (Arithmetic.ofInt n)
  else True

theorem result?_eq_none {f : Intrinsic} (h : f.isComputed = false) (args : List (Value ν)) :
    f.result? args = none := by
  rw [result?.eq_def]
  split <;> cases f <;> first | rfl | cases h

/-- A function gives the value that is computed for it. -/
theorem eq_of_gives {f : Intrinsic} {args : List (Value ν)} {v w : Value ν}
    (h : f.result? args = some v) (hw : f.Gives args w) : w = v := by
  cases hf : f.isComputed with
  | false => exact absurd h (by simp [result?_eq_none hf])
  | true =>
    rw [Gives, if_pos hf, h] at hw
    exact (Option.some.inj hw).symm

end Intrinsic

namespace Expr

section Denotes

variable [LiteralValues ν]

mutual

/-- The expression may have this value in the memory. -/
def Denotes (memory : Memory ν) : Expr Float → Value ν → Prop
  | .number x _, v => ∃ n, LiteralValues.literal? x = some n ∧ v = .number n ∧ v.Legal
  | .string s, v => v = .string s ∧ v.Legal
  | .scalar name, v => v = memory name.key ∧ v.Legal
  | .element .., v => v.Legal
  | .unary op operand, v =>
    ∃ n m, operand.Denotes memory (.number n) ∧ op.result? n = some m ∧ v = .number m ∧ v.Legal
  | .binary op left right, v =>
    ∃ x y, left.Denotes memory x ∧ right.Denotes memory y ∧ op.result? x y = some v ∧ v.Legal
  | .intrinsic f args, v => ∃ values, DenoteAll memory args values ∧ f.Gives values v ∧ v.Legal
  | .call .., v => v.Legal

def DenoteAll (memory : Memory ν) : List (Expr Float) → List (Value ν) → Prop
  | [], values => values = []
  | e :: rest, values => ∃ v others, e.Denotes memory v ∧ DenoteAll memory rest others ∧
      values = v :: others

end

theorem Denotes.legal {memory : Memory ν} {e : Expr Float} {v : Value ν}
    (h : e.Denotes memory v) : v.Legal := by
  cases e with
  | number =>
    obtain ⟨_, _, _, h⟩ := h
    exact h
  | string => exact h.2
  | scalar => exact h.2
  | element => exact h
  | unary =>
    obtain ⟨_, _, _, _, _, h⟩ := h
    exact h
  | binary =>
    obtain ⟨_, _, _, _, _, h⟩ := h
    exact h
  | intrinsic =>
    obtain ⟨_, _, _, h⟩ := h
    exact h
  | call => exact h

end Denotes

variable {memory : Memory Float} {known : String → Option Float}

mutual

/-- Where an expression is evaluated with scalars of the memory, it has no other value. -/
theorem eq_of_denotes (hknown : ∀ key n, known key = some n → memory key = .number n) :
    ∀ {e : Expr Float} {v w : Value Float},
      e.evaluate? known = some v → e.Denotes memory w → w = v
  | .number x text, v, w, h, hw => by
    obtain ⟨n, hn, rfl, -⟩ := hw
    obtain rfl : x = n := Option.some.inj hn
    exact Option.some.inj h
  | .string s, v, w, h, hw => hw.1.trans (Option.some.inj h)
  | .scalar name, v, w, h, hw => by
    simp only [evaluate?, Option.map_eq_some_iff] at h
    obtain ⟨n, hn, rfl⟩ := h
    exact hw.1.trans (hknown _ _ hn)
  | .element .., _, _, h, _ => by simp [evaluate?] at h
  | .unary op operand, v, w, h, hw => by
    obtain ⟨n, m, hn, hm, rfl⟩ := evaluate?_unary_eq_some_iff.1 h
    obtain ⟨n', m', hn', hm', rfl, -⟩ := hw
    obtain ⟨rfl⟩ := Value.number.inj (eq_of_denotes hknown hn hn')
    rw [Option.some.inj (hm'.symm.trans hm)]
  | .binary op left right, v, w, h, hw => by
    obtain ⟨x, y, hx, hy, hv⟩ := evaluate?_binary_eq_some_iff.1 h
    obtain ⟨x', y', hx', hy', hw, -⟩ := hw
    obtain rfl := eq_of_denotes hknown hx hx'
    obtain rfl := eq_of_denotes hknown hy hy'
    exact Option.some.inj (hw.symm.trans hv)
  | .intrinsic f args, v, w, h, hw => by
    simp only [evaluate?, bind, Option.bind_eq_some_iff] at h
    obtain ⟨values, hvalues, hv⟩ := h
    obtain ⟨values', hvalues', hw, -⟩ := hw
    obtain rfl := eq_of_denoteAll hknown hvalues hvalues'
    exact Intrinsic.eq_of_gives hv hw
  | .call .., _, _, h, _ => by simp [evaluate?] at h

theorem eq_of_denoteAll (hknown : ∀ key n, known key = some n → memory key = .number n) :
    ∀ {es : List (Expr Float)} {vs ws : List (Value Float)},
      evaluateList? known es = some vs → DenoteAll memory es ws → ws = vs
  | [], vs, ws, h, hw => hw.trans (Option.some.inj h)
  | e :: rest, vs, ws, h, hw => by
    simp only [evaluateList?, bind, Option.bind_eq_some_iff] at h
    obtain ⟨v, hv, others, hothers, hvs⟩ := h
    obtain ⟨w, others', hw, hothers', rfl⟩ := hw
    obtain rfl := eq_of_denotes hknown hv hw
    obtain rfl := eq_of_denoteAll hknown hothers hothers'
    exact Option.some.inj hvs

end

end Expr
end LineBasic
