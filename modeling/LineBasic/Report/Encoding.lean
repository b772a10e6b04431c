import LineBasic.Report.Json
import LineBasic.Expr.Reduction
import LineBasic.Range.Interval
import LineBasic.Symbol.Build

/-!
# Findings as structured values

The members of every finding in a structured report.
-/

namespace LineBasic

open Json

def Value.toJson : Value Float → Json
  | .number n => .float n
  | .string s => .string s

/-- A reduction on a program line. -/
def Reduction.toJson (line : Nat) (r : Reduction) : Json :=
  .object [("line", natural line), ("original_expr", .string r.before),
    ("reduced_expr", .string r.after), ("kind", .string r.identity.label),
    ("savings", .string r.identity.savings)]

def ErrorCause.toJson : ErrorCause → Json
  | conflictingOptionBase firstLine firstValue line value =>
    tagged "ConflictingOptionBase"
      [("first_line", natural firstLine), ("first_value", natural firstValue),
        ("line", natural line), ("value", natural value)]
  | invalidOptionBase value => tagged "InvalidOptionBase" [("value", natural value)]
  | arrayRedimensioned name firstLine =>
    tagged "ArrayRedimensioned" [("name", .string name), ("first_line", natural firstLine)]
  | nonConstantDimension name extent =>
    tagged "NonConstantDimension" [("name", .string name), ("extent", .string extent)]
  | negativeDimension name value =>
    tagged "NegativeDimension" [("name", .string name), ("value", .integer value)]
  | dimensionBelowBase name value base =>
    tagged "DimensionBelowBase"
      [("name", .string name), ("value", .integer value), ("base", natural base)]
  | dimensionTooLarge name extent =>
    tagged "DimensionTooLarge" [("name", .string name), ("extent", .string extent)]
  | functionRedefined name firstLine =>
    tagged "FunctionRedefined" [("name", .string name), ("first_line", natural firstLine)]
  | undefinedFunction name => tagged "UndefinedFunction" [("name", .string name)]
  | functionArity name expected found =>
    tagged "FunctionArity"
      [("name", .string name), ("expected", natural expected), ("found", natural found)]
  | undefinedLine target statement =>
    tagged "UndefinedLine" [("target", natural target), ("statement", .string statement)]
  | nextWithoutFor => tagged "NextWithoutFor" []
  | nextMismatch expected found =>
    tagged "NextMismatch" [("expected", .string expected), ("found", .string found)]
  | wendWithoutWhile => tagged "WendWithoutWhile" []
  | flatteningSkipped name => tagged "FlatteningSkipped" [("name", .string name)]
  | unsupportedCommand name => tagged "UnsupportedCommand" [("name", .string name)]
  | unsupportedStatement name => tagged "UnsupportedStatement" [("name", .string name)]
where
  tagged (kind : String) (members : List (String × Json)) : Json :=
    .object (("kind", .string kind) :: members)

/-- The members of a mapping from names, in the order of the names. -/
def Json.ofMap {α : Type} (encode : α → Json) (m : Std.ExtTreeMap String α) : Json :=
  .object (m.toList.map fun (key, a) => (key, encode a))

def IntegerRange.toJson (r : IntegerRange) : Json :=
  .object [("variable", .string r.name), ("min", .integer r.min), ("max", .integer r.max),
    ("width", .string r.width.name)]

/-- The members that scalars and arrays share. -/
def variableJson (name : Name) (type : StorageType) (isArray : Bool) (dimensions : List Int)
    (dimLine : Option Nat) (firstLine : Nat) (layout : Option ArrayLayout)
    (range : Option IntegerRange) : Json :=
  .object [("name", .string name.key), ("display_name", .string name.text),
    ("var_type", .string type.label), ("is_array", .bool isArray),
    ("dimensions", list .integer dimensions), ("explicitly_dimensioned", .bool dimLine.isSome),
    ("dim_line", optional natural dimLine), ("first_use_line", natural firstLine),
    ("flattened_size", optional (fun l => natural l.size) layout),
    ("strides", list natural (layout.elim [] ArrayLayout.strides)),
    ("integer_range", optional IntegerRange.toJson range)]

def ScalarInfo.toJson (i : ScalarInfo) : Json :=
  variableJson i.name i.type false [] none i.firstLine none i.integerRange

def ArrayInfo.toJson (i : ArrayInfo) : Json :=
  variableJson i.name i.type true i.dimensions i.dimLine i.firstLine i.layout none

def FunctionInfo.toJson (f : FunctionInfo) : Json :=
  .object [("name", .string f.name.key), ("display_name", .string f.name.text),
    ("return_type", .string f.type.label), ("parameters", strings f.parameters),
    ("definition_line", natural f.line), ("body", .string f.body.canonical)]

def SymbolTable.toJson (t : SymbolTable) : Json :=
  .object [("variables", .ofMap ScalarInfo.toJson t.scalars),
    ("arrays", .ofMap ArrayInfo.toJson t.arrays),
    ("functions", .ofMap FunctionInfo.toJson t.functions), ("array_base", natural t.base),
    ("base_line", optional natural t.baseLine), ("base_resolved", .bool t.baseResolved)]

end LineBasic
