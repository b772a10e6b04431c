import LineBasic.Proofs.Expr.AlikeValues
import LineBasic.Proofs.Expr.Denotation

/-!
# Environments

An environment gives values to scalars, to array elements and to the functions that are not computed,
and so to all expressions (`Expr.valueIn`). What the evaluation of constants and of expressions over
numeric scalars computes is the value in an environment that knows nothing else
(`Expr.evaluate?_eq_valueIn`).

A relation between values is kept by an environment (`Environment.Keeps`) if operators, subscripts and
functions take related operands to related results. Equality is kept by all environments, and
alikeness by those that do not tell zeros apart by their signs.
-/

namespace LineBasic

open Arithmetic

variable {ν : Type}

/-- The values of what an expression reads. Names stand for themselves in upper case. -/
structure Environment (ν : Type) where
  scalar : String → Option (Value ν)
  /-- The elements of arrays, by their subscripts. -/
  element : String → List Int → Option (Value ν)
  /-- The functions that a program defines, and those that depend on the machine. -/
  function : String → List (Value ν) → Option (Value ν)

/-- The environment in which only scalars have values, which are numbers. -/
def Environment.ofScalars (f : String → Option ν) : Environment ν where
  scalar name := (f name).map .number
  element _ _ := none
  function _ _ := none

section

variable [Arithmetic ν]

/-- The value of a unary operator, whose operand has to be a number. -/
def UnaryOp.valueOf? (op : UnaryOp) (v : Value ν) : Option (Value ν) :=
  v.number?.bind fun n => (op.result? n).map .number

/-- The subscript that a value stands for, a number being rounded. -/
def Value.subscript? (v : Value ν) : Option Int := v.number?.bind Arithmetic.nearest?

namespace Environment

/-- The element with these subscripts. -/
def at? (env : Environment ν) (name : String) (subscripts : List (Value ν)) : Option (Value ν) :=
  (subscripts.mapM Value.subscript?).bind (env.element name)

/-- The value of an intrinsic function. -/
def intrinsic? (env : Environment ν) (f : Intrinsic) (args : List (Value ν)) : Option (Value ν) :=
  if f.isComputed then f.result? args else env.function f.name args

end Environment

namespace Expr

mutual

/-- The value of an expression in an environment. -/
def valueIn (env : Environment ν) : Expr ν → Option (Value ν)
  | .number n _ => some (.number n)
  | .string s => some (.string s)
  | .scalar name => env.scalar name.key
  | .element name subscripts => (valuesIn env subscripts).bind (env.at? name.key)
  | .unary op operand => (operand.valueIn env).bind op.valueOf?
  | .binary op left right =>
    (left.valueIn env).bind fun l => (right.valueIn env).bind fun r => op.result? l r
  | .intrinsic f args => (valuesIn env args).bind (env.intrinsic? f)
  | .call name args => (valuesIn env args).bind (env.function name.key)

def valuesIn (env : Environment ν) : List (Expr ν) → Option (List (Value ν))
  | [] => some []
  | e :: rest => (e.valueIn env).bind fun v => (valuesIn env rest).map (v :: ·)

end

/-! ## Environments of scalars -/

mutual

theorem evaluate?_eq_valueIn (f : String → Option ν) :
    ∀ e : Expr ν, e.evaluate? f = e.valueIn (.ofScalars f)
  | .number .. | .string _ | .scalar _ => rfl
  | .element name subscripts => by
    rw [evaluate?, valueIn]
    have hnone : (Environment.ofScalars f).at? name.key = fun _ => none := by
      funext vs
      unfold Environment.at? Environment.ofScalars
      cases vs.mapM Value.subscript? <;> rfl
    rw [hnone]
    cases valuesIn (.ofScalars f) subscripts <;> rfl
  | .unary op operand => by
    rw [evaluate?, valueIn, evaluate?_eq_valueIn f operand]
    cases operand.valueIn (.ofScalars f) with
    | none => rfl
    | some v =>
      cases v with
      | number n =>
        have hvalue : op.valueOf? (.number n) = (op.result? n).map .number := rfl
        rw [Option.bind_some, hvalue]
        cases hresult : op.result? n <;> simp [Value.number?, hresult]
      | string s => rfl
  | .binary op left right => by
    rw [evaluate?, valueIn, evaluate?_eq_valueIn f left, evaluate?_eq_valueIn f right]
    rfl
  | .intrinsic function args => by
    rw [evaluate?, valueIn, evaluateList?_eq_valuesIn f args]
    have hresult : (Environment.ofScalars f).intrinsic? function = function.result? := by
      funext vs
      unfold Environment.intrinsic?
      split
      next => rfl
      next hcomputed => exact (Intrinsic.result?_eq_none (by simpa using hcomputed) vs).symm
    rw [hresult]
    rfl
  | .call name args => by
    rw [evaluate?, valueIn]
    cases valuesIn (.ofScalars f) args <;> rfl

theorem evaluateList?_eq_valuesIn (f : String → Option ν) :
    ∀ es : List (Expr ν), evaluateList? f es = valuesIn (.ofScalars f) es
  | [] => rfl
  | e :: rest => by
    rw [evaluateList?, valuesIn, evaluate?_eq_valueIn f e, evaluateList?_eq_valuesIn f rest]
    cases e.valueIn (.ofScalars f) with
    | none => rfl
    | some v => cases valuesIn (.ofScalars f) rest <;> rfl

end

end Expr

/-! ## Relations between values -/

/-- Related values have related results, or neither has a result. -/
theorem bind_rel {α β γ δ : Type} {R : α → β → Prop} {S : γ → δ → Prop} {x : Option α}
    {y : Option β} {f : α → Option γ} {g : β → Option δ} (h : Option.Rel R x y)
    (hfg : ∀ a b, R a b → Option.Rel S (f a) (g b)) : Option.Rel S (x.bind f) (y.bind g) := by
  cases h with
  | none => exact .none
  | some h => exact hfg _ _ h

theorem map_rel {α β γ δ : Type} {R : α → β → Prop} {S : γ → δ → Prop} {x : Option α}
    {y : Option β} {f : α → γ} {g : β → δ} (h : Option.Rel R x y)
    (hfg : ∀ a b, R a b → S (f a) (g b)) : Option.Rel S (x.map f) (y.map g) := by
  cases h with
  | none => exact .none
  | some h => exact .some (hfg _ _ h)

namespace Environment

variable {env : Environment ν} {R : Value ν → Value ν → Prop}

/-- Everything that is computed in the environment takes related operands to related results. -/
structure Keeps (env : Environment ν) (R : Value ν → Value ν → Prop) : Prop where
  refl (v : Value ν) : R v v
  valueOf? (op : UnaryOp) {v w : Value ν} : R v w → Option.Rel R (op.valueOf? v) (op.valueOf? w)
  result? (op : BinaryOp) {v w v' w' : Value ν} : R v v' → R w w' →
    Option.Rel R (op.result? v w) (op.result? v' w')
  at? (name : String) {vs ws : List (Value ν)} : List.Forall₂ R vs ws →
    Option.Rel R (env.at? name vs) (env.at? name ws)
  intrinsic? (f : Intrinsic) {vs ws : List (Value ν)} : List.Forall₂ R vs ws →
    Option.Rel R (env.intrinsic? f vs) (env.intrinsic? f ws)
  function (name : String) {vs ws : List (Value ν)} : List.Forall₂ R vs ws →
    Option.Rel R (env.function name vs) (env.function name ws)

omit [Arithmetic ν] in
theorem rel_of_eq (hR : ∀ v, R v v) {x y : Option (Value ν)} (h : x = y) : Option.Rel R x y := by
  subst h
  cases x with
  | none => exact .none
  | some v => exact .some (hR v)

omit [Arithmetic ν] in
theorem eq_of_rel {x y : Option (Value ν)} (h : Option.Rel Eq x y) : x = y := by
  cases h with
  | none => rfl
  | some h => rw [h]

theorem keeps_eq (env : Environment ν) : env.Keeps Eq where
  refl _ := rfl
  valueOf? op _ _ h := rel_of_eq (fun _ => rfl) (congrArg op.valueOf? h)
  result? op _ _ _ _ h h' := rel_of_eq (fun _ => rfl) (congrArg₂ op.result? h h')
  at? name _ _ h := rel_of_eq (fun _ => rfl) (congrArg (env.at? name) (List.forall₂_eq_eq_eq ▸ h))
  intrinsic? f _ _ h :=
    rel_of_eq (fun _ => rfl) (congrArg (env.intrinsic? f) (List.forall₂_eq_eq_eq ▸ h))
  function name _ _ h :=
    rel_of_eq (fun _ => rfl) (congrArg (env.function name) (List.forall₂_eq_eq_eq ▸ h))

/-- The functions that are not computed do not tell zeros apart by their signs. -/
def IgnoresZeroSigns (env : Environment ν) : Prop :=
  ∀ name vs ws, List.Forall₂ Value.Alike vs ws →
    AlikeResults (env.function name vs) (env.function name ws)

variable [ZeroSigns ν]

theorem subscript?_alike {v w : Value ν} (h : v.Alike w) : v.subscript? = w.subscript? := by
  cases h with
  | number h => exact ZeroSigns.nearest? h
  | string s => rfl

theorem mapM_subscript?_alike {vs ws : List (Value ν)} (h : List.Forall₂ Value.Alike vs ws) :
    vs.mapM Value.subscript? = ws.mapM Value.subscript? := by
  induction h with
  | nil => rfl
  | cons h _ ih => rw [List.mapM_cons, List.mapM_cons, subscript?_alike h, ih]

theorem IgnoresZeroSigns.keeps (h : env.IgnoresZeroSigns) : env.Keeps Value.Alike where
  refl := .refl
  valueOf? op v w hvw := by
    cases hvw with
    | number hab => exact op.result?_alike hab
    | string s => exact .none
  result? op _ _ _ _ := op.result?_alike
  at? name vs ws hvs := by
    unfold at?
    rw [mapM_subscript?_alike hvs]
    exact AlikeResults.refl _
  intrinsic? f vs ws hvs := by
    unfold intrinsic?
    split
    · exact f.result?_alike hvs
    · exact h f.name vs ws hvs
  function name vs ws hvs := h name vs ws hvs

end Environment
end
end LineBasic
