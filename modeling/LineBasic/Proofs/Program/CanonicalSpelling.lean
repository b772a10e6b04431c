import LineBasic.Proofs.Expr.CanonicalReduction
import LineBasic.Program.Simplification
import LineBasic.Program.Walk

/-!
# Programs in the canonical spelling

`Program.canonically` writes the names of a program in capital letters and its numbers in their
canonical form, and drops the columns, which move with the text in front of them. Two programs
differ in the spelling only if they have the same canonical spelling (`Program.Respells`). The walks
over a program meet the same statements and expressions in the canonical spelling.
-/

namespace LineBasic

/-! ## The canonical spelling -/

section

variable {ν : Type} [Arithmetic ν]

def Target.canonically : Target ν → Target ν
  | scalar name => scalar ⟨name.key⟩
  | element name subscripts => element ⟨name.key⟩ (Expr.canonicallyList subscripts)

@[simp] theorem Target.key_name_canonically (t : Target ν) :
    t.canonically.name.key = t.name.key := by
  cases t <;> exact Name.key_key _

@[simp] theorem Target.subscripts_canonically (t : Target ν) :
    t.canonically.subscripts = t.subscripts.map Expr.canonically := by
  cases t with
  | scalar => rfl
  | element _ subscripts => exact Expr.canonicallyList_eq_map subscripts

@[simp] theorem Target.scalarKey?_canonically (t : Target ν) :
    t.canonically.scalarKey? = t.scalarKey? := by
  cases t with
  | scalar name => exact congrArg some name.key_key
  | element => rfl

end

def PrintItem.canonically : PrintItem → PrintItem
  | expr e => expr e.canonically
  | zone => zone
  | join => join

def ArrayDecl.canonically (a : ArrayDecl) : ArrayDecl :=
  ⟨⟨a.name.key⟩, a.extents.map Expr.canonically⟩

namespace Command

def canonically : Command → Command
  | assign target value => assign target.canonically value.canonically
  | print channel items =>
    print (channel.map Expr.canonically) (items.map PrintItem.canonically)
  | input channel prompt targets =>
    input (channel.map Expr.canonically) prompt (targets.map Target.canonically)
  | lineInput channel prompt target =>
    lineInput (channel.map Expr.canonically) prompt target.canonically
  | read targets => read (targets.map Target.canonically)
  | dim arrays => dim (arrays.map ArrayDecl.canonically)
  | defFn name params body =>
    defFn ⟨name.key⟩ (params.map fun param => ⟨param.key⟩) body.canonically
  | forLoop counter start stop step =>
    forLoop ⟨counter.key⟩ start.canonically stop.canonically (step.map Expr.canonically)
  | next counters => next (counters.map fun counter => ⟨counter.key⟩)
  | whileLoop condition => whileLoop condition.canonically
  | onGoto selector lines => onGoto selector.canonically lines
  | onGosub selector lines => onGosub selector.canonically lines
  | swap left right => swap left.canonically right.canonically
  | randomize seed => randomize (seed.map Expr.canonically)
  | common names => common (names.map fun name => ⟨name.key⟩)
  | erase names => erase (names.map fun name => ⟨name.key⟩)
  | device keyword args => device keyword (args.map Expr.canonically)
  | c => c

end Command

mutual

/-- The statement in the canonical spelling, its line without the column. -/
def Statement.canonically : Statement → Statement
  | .command place body => .command ⟨place.line, 0⟩ body.canonically
  | .conditional place condition onTrue none =>
    .conditional ⟨place.line, 0⟩ condition.canonically onTrue.canonically none
  | .conditional place condition onTrue (some onFalse) =>
    .conditional ⟨place.line, 0⟩ condition.canonically onTrue.canonically
      (some onFalse.canonically)

def Arm.canonically : Arm → Arm
  | .line number => .line number
  | .block statements => .block (canonicalStatements statements)

def canonicalStatements : List Statement → List Statement
  | [] => []
  | s :: rest => s.canonically :: canonicalStatements rest

end

def ProgramLine.canonically (l : ProgramLine) : ProgramLine :=
  { l with statements := canonicalStatements l.statements }

def Program.canonically (p : Program) : Program := ⟨p.lines.map ProgramLine.canonically⟩

/-- The programs are equal except for the spelling of names and numbers, and the columns. -/
def Program.Respells (p q : Program) : Prop := p.canonically = q.canonically

theorem canonicalStatements_eq_map (statements : List Statement) :
    canonicalStatements statements = statements.map Statement.canonically := by
  induction statements with
  | nil => rfl
  | cons s rest ih => rw [canonicalStatements, ih, List.map_cons]

/-! ## Walks -/

/-- The part in the canonical spelling. -/
def Part.canonically : Part → Part
  | expr e => expr e.canonically
  | target t => target t.canonically

@[simp] theorem Part.roots_canonically (part : Part) :
    part.canonically.roots = part.roots.map Expr.canonically := by
  cases part with
  | expr => rfl
  | target t => exact t.subscripts_canonically

theorem Command.parts_canonically (c : Command) :
    c.canonically.parts = c.parts.map Part.canonically := by
  cases c with
  | print channel items =>
    simp only [canonically, parts, Option.toList_map, List.map_map, List.map_append,
      List.filterMap_map, List.map_filterMap]
    congr 2
    funext item
    cases item <;> rfl
  | input | lineInput | read | dim | forLoop | randomize | device =>
    simp [canonically, parts, List.flatMap_map, List.map_flatMap, ArrayDecl.canonically,
      Function.comp_def, Part.canonically, Option.toList_map]
  | _ => rfl

theorem Command.roots_canonically (c : Command) :
    c.canonically.roots = c.roots.map Expr.canonically := by
  simp only [roots, parts_canonically, List.flatMap_map, List.map_flatMap, Part.roots_canonically]

namespace Statement

@[simp] theorem line_canonically (s : Statement) : s.canonically.line = s.line := by
  cases s with
  | command => rfl
  | conditional _ _ _ onFalse => cases onFalse <;> rfl

@[simp] theorem command?_canonically (s : Statement) :
    s.canonically.command? = s.command?.map Command.canonically := by
  cases s with
  | command => rfl
  | conditional _ _ _ onFalse => cases onFalse <;> rfl

theorem roots_canonically (s : Statement) :
    s.canonically.roots = s.roots.map Expr.canonically := by
  cases s with
  | command _ body => exact body.roots_canonically
  | conditional _ _ _ onFalse => cases onFalse <;> rfl

end Statement

mutual

theorem Statement.occurrences_canonically (depth : Nat) : (s : Statement) →
    s.canonically.occurrences depth = (s.occurrences depth).map (Prod.map Statement.canonically id)
  | .command .. => rfl
  | .conditional _ _ onTrue none => congrArg _ (onTrue.occurrences_canonically (depth + 1))
  | .conditional _ _ onTrue (some onFalse) => by
    simp only [Statement.canonically, Statement.occurrences, List.map_cons, List.map_append,
      Arm.occurrences_canonically (depth + 1) onTrue,
      Arm.occurrences_canonically (depth + 1) onFalse]
    rfl

theorem Arm.occurrences_canonically (depth : Nat) : (arm : Arm) →
    arm.canonically.occurrences depth =
      (arm.occurrences depth).map (Prod.map Statement.canonically id)
  | .line _ => rfl
  | .block statements => occurrencesOfList_canonically depth statements

theorem occurrencesOfList_canonically (depth : Nat) : (statements : List Statement) →
    occurrencesOfList depth (canonicalStatements statements) =
      (occurrencesOfList depth statements).map (Prod.map Statement.canonically id)
  | [] => rfl
  | s :: rest => by
    simp only [canonicalStatements, occurrencesOfList, List.map_append,
      s.occurrences_canonically depth, occurrencesOfList_canonically depth rest]

end

namespace Program

theorem statements_canonically (p : Program) :
    p.canonically.statements = canonicalStatements p.statements := by
  simp only [statements, canonically, ProgramLine.canonically, List.flatMap_map,
    canonicalStatements_eq_map, List.map_flatMap]

theorem occurrences_canonically (p : Program) :
    p.canonically.occurrences = p.occurrences.map (Prod.map Statement.canonically id) := by
  rw [occurrences, statements_canonically, occurrencesOfList_canonically, occurrences]

theorem allStatements_canonically (p : Program) :
    p.canonically.allStatements = p.allStatements.map Statement.canonically := by
  rw [allStatements, occurrences_canonically, List.map_map, allStatements, List.map_map]
  rfl

theorem roots_canonically (p : Program) :
    p.canonically.roots = p.roots.map (Prod.map id Expr.canonically) := by
  simp only [roots, allStatements_canonically, List.flatMap_map, List.map_flatMap,
    Statement.roots_canonically, Statement.line_canonically, List.map_map]
  rfl

@[simp] theorem isSome_line?_canonically (p : Program) (number : Nat) :
    (p.canonically.line? number).isSome = (p.line? number).isSome := by
  rw [line?, canonically, List.find?_map, Option.isSome_map]
  rfl

end Program

/-! ## Simplifications -/

/-- The finding without the text that was typed. -/
def FoldedExpression.withoutText (f : FoldedExpression) : FoldedExpression :=
  { f with expression := "" }

namespace Program

theorem foldedExpressions_canonically (p : Program) :
    p.canonically.foldedExpressions.map FoldedExpression.withoutText =
      p.foldedExpressions.map FoldedExpression.withoutText := by
  simp only [foldedExpressions, roots_canonically, List.flatMap_map, List.map_flatMap,
    Expr.foldable_canonically, List.map_map, Prod.map]
  rfl

theorem reductions_canonically (p : Program) (boolean : Bool) :
    p.canonically.reductions boolean = p.reductions boolean := by
  simp only [reductions, roots_canonically, List.flatMap_map, Prod.map, Expr.reduce_canonically,
    Expr.reportedCanonically, id]

end Program
end LineBasic
