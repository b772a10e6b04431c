import Std.Data.ExtTreeMap
import LineBasic.ArrayLayout
import LineBasic.Range.Width

/-!
# Symbol tables

What is known of the scalars, the arrays and the user functions of a program, by their keys. Scalars
and arrays are apart: `A` and `A(1)` have nothing to do with each other.
-/

namespace LineBasic

/-- The integers that a scalar takes, and the narrowest machine integer for them. -/
structure IntegerRange where
  name : String
  min : Int
  max : Int
  width : IntegerWidth
  deriving DecidableEq, Repr

structure ScalarInfo where
  /-- The name at its first occurrence. -/
  name : Name
  type : StorageType
  firstLine : Nat
  integerRange : Option IntegerRange
  deriving DecidableEq, Repr

structure ArrayInfo where
  /-- The name at its first occurrence. -/
  name : Name
  type : StorageType
  firstLine : Nat
  /-- The line of the `DIM` statement; an array may be used without one. -/
  dimLine : Option Nat
  /-- The inclusive upper bounds; none are known after a faulty `DIM`. -/
  dimensions : List Int
  layout : Option ArrayLayout
  deriving DecidableEq, Repr

structure FunctionInfo where
  name : Name
  type : StorageType
  /-- The keys of the parameters. -/
  parameters : List String
  line : Nat
  body : Expr Float
  deriving Repr

/-- The scalars that a function body reads beside its parameters, in the order of appearance. -/
def FunctionInfo.freeVariables (f : FunctionInfo) : List String :=
  (f.body.subterms.filterMap fun e => match e with
    | .scalar name => if f.parameters.contains name.key then none else some name.key
    | _ => none).eraseDups

structure SymbolTable where
  scalars : Std.ExtTreeMap String ScalarInfo
  arrays : Std.ExtTreeMap String ArrayInfo
  functions : Std.ExtTreeMap String FunctionInfo
  /-- The lowest subscript of every array. -/
  base : Nat
  /-- The line that set the base. -/
  baseLine : Option Nat
  /-- No statement contradicts the base. -/
  baseResolved : Bool
  /-- The types that `DEF` statements give to names by their first letter. -/
  letterTypes : Std.ExtTreeMap Char StorageType

namespace SymbolTable

def empty : SymbolTable := ⟨∅, ∅, ∅, 0, none, true, ∅⟩

/-- The type of a variable: by its suffix, else by its first letter, else single. -/
def typeOf (t : SymbolTable) (name : Name) : StorageType :=
  (name.suffix? <|> t.letterTypes[name.initial]?).getD .single

/-- The type of a user function, whose first letter comes after `FN`. -/
def functionTypeOf (t : SymbolTable) (name : Name) : StorageType :=
  (name.suffix? <|> (name.key.toList[2]?).bind fun letter => t.letterTypes[letter]?).getD .single

/-- The storage plan of an array, unless the base is contradicted. -/
def layout? (t : SymbolTable) (name : String) : Option ArrayLayout :=
  if t.baseResolved then t.arrays[name]?.bind ArrayInfo.layout else none

end SymbolTable
end LineBasic
