import LineBasic.Error.Semantic
import LineBasic.Program.Walk
import LineBasic.Symbol.Table

/-!
# References

Every line that a statement refers to must be in the program, every user function that is called
must be defined with as many parameters as there are arguments, and some statements cannot be
compiled.
-/

namespace LineBasic

/-- The lines that a command refers to. -/
def Command.lineReferences : Command → List Nat
  | goto line | gosub line | restore (some line) | resume (.line line) => [line]
  | onGoto _ lines | onGosub _ lines => lines
  | onError line => if line = 0 then [] else [line]
  | _ => []

/-- The line that an arm goes to. -/
def Arm.lineReference? : Arm → Option Nat
  | line number => some number
  | block _ => none

/-- The lines that a statement refers to, with the words that do, those inside its arms left out. -/
def Statement.lineReferences : Statement → List (Nat × String)
  | command _ body => body.lineReferences.map fun line => (line, body.keyword)
  | conditional _ _ onTrue onFalse =>
    onTrue.lineReference?.toList.map (fun line => (line, "THEN")) ++
      (onFalse.bind Arm.lineReference?).toList.map fun line => (line, "ELSE")

/-- Why a command cannot be compiled. -/
def Command.unsupported? : Command → Option ErrorCause
  | interactive keyword _ => some (.unsupportedCommand keyword)
  | common names => some (.unsupportedStatement (common names).keyword)
  | erase names => some (.unsupportedStatement (erase names).keyword)
  | _ => none

namespace SymbolTable

/-- What is wrong with a call of a user function. -/
def callFault? (t : SymbolTable) : Expr Float → Option ErrorCause
  | .call name args =>
    match t.functions[name.key]? with
    | none => some (.undefinedFunction name.key)
    | some f =>
      if f.parameters.length = args.length then none
      else some (.functionArity name.key f.parameters.length args.length)
  | _ => none

/-- The errors of a statement, without those of the statements in its arms. -/
def referenceErrors (t : SymbolTable) (p : Program) (s : Statement) : List SemanticError :=
  let lines := s.lineReferences.filterMap fun (target, word) =>
    if (p.line? target).isSome then none else some (ErrorCause.undefinedLine target word)
  let unsupported := (s.command?.bind Command.unsupported?).toList
  let calls := (Expr.subtermsOfList s.roots).filterMap t.callFault?
  (lines ++ unsupported ++ calls).map (.onLine s.line)

end SymbolTable

/-- The reference errors of a program, in the order of the text. -/
def Program.referenceErrors (p : Program) (t : SymbolTable) : List SemanticError :=
  p.allStatements.flatMap (t.referenceErrors p)

end LineBasic
