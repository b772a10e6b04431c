import LineBasic.Expr.Reduction
import LineBasic.Program.Walk

/-!
# Simplifications in a program

The parts of expressions that have a value of their own, and the reductions that make expressions
cheaper, each with the program line of the expression.
-/

namespace LineBasic

/-- A part of an expression that can be replaced by its value. -/
structure FoldedExpression where
  line : Nat
  /-- The part as it was typed. -/
  expression : String
  value : Value Float

/-- A reduction of an expression of a program line. -/
structure ReducedExpression where
  line : Nat
  reduction : Reduction
  deriving DecidableEq, Repr

namespace Program

/-- The largest foldable parts of all expressions, in the order of the text. -/
def foldedExpressions (p : Program) : List FoldedExpression :=
  p.roots.flatMap fun (line, e) => e.foldable.map fun (part, value) => ⟨line, part.source, value⟩

/-- The reductions of all expressions, in the order of the text; `boolean` allows the logical
rules. -/
def reductions (p : Program) (boolean : Bool) : List ReducedExpression :=
  p.roots.flatMap fun (line, e) => (e.reduce boolean).2.map fun r => ⟨line, r⟩

end Program
end LineBasic
