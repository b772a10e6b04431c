import LineBasic.Journal.Record
import LineBasic.Regex.Pattern

/-!
# Filters for journals

A filter admits a record if the most specific of its rules for the topic does. It is written as a
list of rules separated by commas: a level, a topic, or a topic with a level, as in `info` or
`analyzer::symbols=trace`; after a slash follows a regular expression that every message has to
match somewhere. A rule replaces an earlier one for the same topics.
-/

namespace LineBasic

/-- Which levels a topic is admitted with. -/
structure LogRule where
  /-- How the paths of the topics begin; missing in a rule for all topics. -/
  topic : Option String
  /-- The rank of the least grave level that is admitted; `0` admits nothing. -/
  rank : Nat
  deriving DecidableEq, Repr

namespace LogRule

/-- Longer beginnings are more specific. -/
def specificity (r : LogRule) : Nat := r.topic.elim 0 String.utf8ByteSize

def concerns (r : LogRule) (t : LogTopic) : Bool :=
  r.topic.all fun start => start.toList.isPrefixOf t.path.toList

end LogRule

structure LogFilter where
  rules : List LogRule
  /-- What every admitted message matches somewhere. -/
  content : Option Regex
  deriving DecidableEq, Repr

namespace LogFilter

/-- Adds a rule in the place of the one for the same topics, if there is one. -/
def setRule (rule : LogRule) (rules : List LogRule) : List LogRule :=
  if rules.any fun old => old.topic == rule.topic then
    rules.map fun old => if old.topic = rule.topic then rule else old
  else rules ++ [rule]

/-- The rule for a topic: of several with the same specificity the last one. -/
def ruleFor? (f : LogFilter) (t : LogTopic) : Option LogRule :=
  (f.rules.filter fun r => r.concerns t).foldl (fun best r =>
    if best.all fun old => old.specificity ≤ r.specificity then some r else best) none

def admits (f : LogFilter) (r : LogRecord) : Bool :=
  (f.ruleFor? r.topic).any (fun rule => r.level.rank ≤ rule.rank) &&
    f.content.all fun content => content.isMatch r.message

/-- Everything down to a level. -/
def upTo (level : LogLevel) : LogFilter := ⟨[⟨none, level.rank⟩], none⟩

/-- The rank that a word for a level stands for. -/
def readLevel? (s : String) : Option Nat :=
  if Text.upper s = "OFF" then some 0
  else (LogLevel.all.find? fun level => level.label == Text.upper s).map LogLevel.rank

def everything : Nat := LogLevel.trace.rank

/-- A rule, or what is wrong with it. -/
def readRule (s : String) : Except String LogRule :=
  match Text.pieces '=' s.toList with
  | [word] =>
    match readLevel? (String.ofList word) with
    | some rank => .ok ⟨none, rank⟩
    | none => .ok ⟨some (String.ofList word), everything⟩
  | [word, level] =>
    let level := Text.trim level
    if level.isEmpty then .ok ⟨some (String.ofList word), everything⟩
    else match readLevel? (String.ofList level) with
      | some rank => .ok ⟨some (String.ofList word), rank⟩
      | none => .error ("invalid logging spec '" ++ String.ofList level ++ "'")
  | _ => .error ("invalid logging spec '" ++ s ++ "'")

/-- The expression behind the slash, if there is one that can be used, and what is wrong with it. -/
def readContent : List (List Char) → Option Regex × List String
  | [] => (none, [])
  | content :: _ =>
    let pattern := String.ofList content
    match Regex.ofPattern pattern with
    | .ok r => (some r, [])
    | .error refusal => (none, ["invalid regex filter - " ++ refusal.message pattern])

/-- The filter that a text describes, and what is wrong with the text. Without rules errors are
admitted. -/
def read (s : String) : LogFilter × List String :=
  let errorsOnly : LogFilter := upTo .error
  match Text.pieces '/' s.toList with
  | rules :: content =>
    if 1 < content.length then (errorsOnly, ["invalid logging spec '" ++ s ++ "' (too many '/'s)"])
    else
      let words := ((Text.pieces ',' rules).map Text.trim).filter fun word => !word.isEmpty
      let results := words.map fun word => readRule (String.ofList word)
      let found := (results.filterMap Except.toOption).foldl (fun rules r => setRule r rules) []
      let faults := results.filterMap fun r => match r with
        | .error fault => some fault
        | .ok _ => none
      let (content, contentFaults) := readContent content
      (⟨if found.isEmpty then errorsOnly.rules else found, content⟩, faults ++ contentFaults)
  | [] => (errorsOnly, [])

end LogFilter
end LineBasic
