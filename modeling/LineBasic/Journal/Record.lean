/-!
# Journals

A journal holds remarks on the course of an analysis. Every remark has a level and a topic, and
names the program line under analysis: the innermost one that has been entered and not been left.
-/

namespace LineBasic

/-- How much a remark matters. -/
inductive LogLevel where
  | error | warn | info | debug | trace
  deriving DecidableEq, Repr

namespace LogLevel

/-- The levels from the gravest on. -/
def all : List LogLevel := [error, warn, info, debug, trace]

def label : LogLevel → String
  | error => "ERROR"
  | warn => "WARN"
  | info => "INFO"
  | debug => "DEBUG"
  | trace => "TRACE"

/-- The place in the order of levels, the gravest first. -/
def rank : LogLevel → Nat
  | error => 1
  | warn => 2
  | info => 3
  | debug => 4
  | trace => 5

end LogLevel

/-- What a remark is about. -/
inductive LogTopic where
  | pipeline | analyzer | passManager | symbols
  | graph | dataflow
  | validation | uninitialized
  | commonSubexpressions | forwardSubstitution | integerRange | loopAnalysis | strengthReduction
  | valueRange
  deriving DecidableEq, Repr

namespace LogTopic

/-- The groups that a topic belongs to, from the outermost on. -/
def groups : LogTopic → List String
  | pipeline | analyzer | passManager | symbols => ["analyzer"]
  | graph | dataflow => ["analyzer", "semantic_graph"]
  | validation | uninitialized => ["analyzer", "analysis"]
  | _ => ["analyzer", "optimization"]

/-- The name within the innermost group. -/
def name : LogTopic → String
  | pipeline => "pipeline"
  | analyzer => "analyzer"
  | passManager => "pass_manager"
  | symbols => "symbols"
  | graph => "cfg"
  | dataflow => "dataflow"
  | validation => "validation"
  | uninitialized => "uninitialized"
  | commonSubexpressions => "cse"
  | forwardSubstitution => "forward_substitution"
  | integerRange => "integer_range"
  | loopAnalysis => "loop_analysis"
  | strengthReduction => "strength_reduction"
  | valueRange => "value_range"

/-- The name with its groups, by which filters select topics. -/
def path (t : LogTopic) : String := "::".intercalate (t.groups ++ [t.name])

end LogTopic

/-- One remark. -/
structure LogRecord where
  level : LogLevel
  topic : LogTopic
  /-- The program line under analysis. -/
  line : Option Nat
  message : String
  deriving DecidableEq, Repr

/-- The remark on one line of text, the level padded to five characters. -/
def LogRecord.text (r : LogRecord) : String :=
  let label := r.level.label
  let padding := String.ofList (List.replicate (5 - label.length) ' ')
  let line := r.line.elim "" fun n => " (line " ++ toString n ++ ")"
  "[" ++ label ++ padding ++ "] " ++ r.topic.name ++ line ++ " - " ++ r.message

structure Journal where
  /-- The program lines that have been entered, the innermost first. -/
  lines : List Nat
  records : List LogRecord
  deriving DecidableEq, Repr

namespace Journal

def empty : Journal := ⟨[], []⟩

/-- Goes on to a program line inside the current one. -/
def enter (line : Nat) (j : Journal) : Journal := { j with lines := line :: j.lines }

/-- Goes back to the line that was current before the last one was entered. -/
def leave (j : Journal) : Journal := { j with lines := j.lines.tail }

/-- The program line under analysis. -/
def currentLine? (j : Journal) : Option Nat := j.lines.head?

/-- Adds a remark on the current line. -/
def note (level : LogLevel) (topic : LogTopic) (message : String) (j : Journal) : Journal :=
  { j with records := j.records ++ [⟨level, topic, j.currentLine?, message⟩] }

/-- Adds a remark on another line. -/
def noteAt (line : Nat) (level : LogLevel) (topic : LogTopic) (message : String) (j : Journal) :
    Journal :=
  ((j.enter line).note level topic message).leave

@[simp] theorem leave_enter (line : Nat) (j : Journal) : (j.enter line).leave = j := rfl

@[simp] theorem currentLine?_enter (line : Nat) (j : Journal) :
    (j.enter line).currentLine? = some line := rfl

end Journal
end LineBasic
