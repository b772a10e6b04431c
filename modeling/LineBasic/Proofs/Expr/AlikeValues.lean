import LineBasic.Expr.Value
import LineBasic.Proofs.Number.ZeroSigns

/-!
# Values up to the sign of zero

Values are alike (`Value.Alike`) if they are equal or both the number zero. Operators and intrinsic
functions take alike operands to alike results, and have a result for the same ones of them.
-/

namespace LineBasic

open Arithmetic

variable {ν : Type} [Arithmetic ν]

/-- The same string, or numbers that differ in the sign of zero at most. -/
inductive Value.Alike : Value ν → Value ν → Prop
  | number {a b : ν} : Arithmetic.Alike a b → Alike (.number a) (.number b)
  | string (s : String) : Alike (.string s) (.string s)

namespace Value.Alike

variable {u v w : Value ν}

@[refl] theorem refl : (v : Value ν) → v.Alike v
  | .number a => .number (.refl a)
  | .string s => .string s

@[symm] theorem symm (h : u.Alike v) : v.Alike u := by
  cases h with
  | number h => exact .number h.symm
  | string s => exact .string s

@[trans] theorem trans (h : u.Alike v) (h' : v.Alike w) : u.Alike w := by
  cases h with
  | number h =>
    cases h' with
    | number h' => exact .number (h.trans h')
  | string s => exact h'

end Value.Alike

/-- Both have alike values, or neither has a value. -/
abbrev AlikeResults (x y : Option (Value ν)) : Prop := Option.Rel Value.Alike x y

namespace AlikeResults

variable {x y : Option (Value ν)}

theorem refl : (x : Option (Value ν)) → AlikeResults x x
  | none => .none
  | some v => .some (.refl v)

theorem exists_of_eq_some {v : Value ν} (h : AlikeResults x y) (hx : x = some v) :
    ∃ w, y = some w ∧ w.Alike v := by
  subst hx
  cases h with
  | some h => exact ⟨_, rfl, h.symm⟩

end AlikeResults

variable [ZeroSigns ν] {a b a' b' : ν}

theorem Value.ofFinite?_alike (h : Arithmetic.Alike a b) :
    AlikeResults (Value.ofFinite? a) (Value.ofFinite? b) := by
  unfold Value.ofFinite?
  rw [ZeroSigns.isFinite h]
  split
  · exact .some (.number h)
  · exact .none

theorem UnaryOp.result?_alike (op : UnaryOp) (h : Arithmetic.Alike a b) :
    AlikeResults ((op.result? a).map .number) ((op.result? b).map .number) := by
  cases op with
  | neg => exact .some (.number (ZeroSigns.neg h))
  | not =>
    unfold UnaryOp.result?
    rw [word?_alike h]
    exact .refl _

namespace BinaryOp

theorem power_alike (ha : Arithmetic.Alike a a') (hb : Arithmetic.Alike b b') :
    AlikeResults (Value.ofFinite? (power a b)) (Value.ofFinite? (power a' b')) := by
  by_cases hfinite : isFinite (power a b) = true
  · exact Value.ofFinite?_alike (ZeroSigns.power ha hb hfinite)
  · have hfinite' : ¬ isFinite (power a' b') = true := by
      intro h
      rw [ZeroSigns.isFinite (ZeroSigns.power ha.symm hb.symm h)] at h
      exact hfinite h
    unfold Value.ofFinite?
    rw [if_neg hfinite, if_neg hfinite']
    exact .none

theorem applyNumbers?_alike (op : BinaryOp) (ha : Arithmetic.Alike a a')
    (hb : Arithmetic.Alike b b') :
    AlikeResults (op.applyNumbers? a b) (op.applyNumbers? a' b') := by
  cases op <;> unfold BinaryOp.applyNumbers?
  case add => exact Value.ofFinite?_alike (ZeroSigns.add ha hb)
  case sub => exact Value.ofFinite?_alike (ZeroSigns.sub ha hb)
  case mul => exact Value.ofFinite?_alike (ZeroSigns.mul ha hb)
  case pow => exact power_alike ha hb
  case div =>
    dsimp only
    rw [← isZero_alike hb]
    cases hzero : isZero b with
    | true => exact .none
    | false => exact Value.ofFinite?_alike (ZeroSigns.div ha hb hzero)
  case eq | ne | lt | le | gt | ge =>
    dsimp only
    rw [ZeroSigns.same ha hb, ZeroSigns.less ha hb, ZeroSigns.less hb ha]
    exact .refl _
  all_goals
    dsimp only
    rw [word?_alike ha, word?_alike hb]
    exact .refl _

theorem result?_alike (op : BinaryOp) {u v u' v' : Value ν} (hu : u.Alike u') (hv : v.Alike v') :
    AlikeResults (op.result? u v) (op.result? u' v') := by
  cases hu with
  | number ha =>
    cases hv with
    | number hb => exact op.applyNumbers?_alike ha hb
    | string t => exact .none
  | string s =>
    cases hv with
    | number hb => exact .none
    | string t => exact .refl _

end BinaryOp

namespace Intrinsic

theorem applyNumber?_alike (f : Intrinsic) (h : Arithmetic.Alike a b) :
    AlikeResults (f.applyNumber? a) (f.applyNumber? b) := by
  have hzero : Arithmetic.Alike (zero : ν) zero := .refl zero
  cases f <;> unfold applyNumber?
  case abs => exact Value.ofFinite?_alike (ZeroSigns.absolute h)
  case int => exact Value.ofFinite?_alike (ZeroSigns.floor h)
  case fix => exact Value.ofFinite?_alike (ZeroSigns.whole h)
  case exp | sin | cos | tan | atn => exact Value.ofFinite?_alike (ZeroSigns.elementary _ h)
  case cint =>
    dsimp only
    rw [word?_alike h]
    exact .refl _
  case chr =>
    dsimp only [count?]
    rw [word?_alike h]
    exact .refl _
  case sgn =>
    dsimp only
    rw [ZeroSigns.less hzero h, ZeroSigns.less h hzero]
    exact .refl _
  case sqr =>
    dsimp only
    rw [ZeroSigns.atMost hzero h]
    split
    · exact Value.ofFinite?_alike (ZeroSigns.elementary _ h)
    · exact .none
  case log =>
    dsimp only
    rw [ZeroSigns.less hzero h]
    split
    · exact Value.ofFinite?_alike (ZeroSigns.elementary _ h)
    · exact .none
  all_goals exact .none

theorem result?_alike (f : Intrinsic) {us vs : List (Value ν)}
    (h : List.Forall₂ Value.Alike us vs) : AlikeResults (f.result? us) (f.result? vs) := by
  cases h with
  | nil => exact .none
  | cons h hrest =>
    cases hrest with
    | nil =>
      cases h with
      | number h => exact f.applyNumber?_alike h
      | string s => exact .refl _
    | cons h' hrest =>
      cases hrest with
      | nil =>
        cases h with
        | number h => exact .none
        | string s =>
          cases h' with
          | number h' =>
            unfold result?
            dsimp only [count?]
            rw [word?_alike h']
            exact .refl _
          | string t => exact .none
      | cons =>
        cases h <;> cases h' <;> exact .none

end Intrinsic
end LineBasic
