import LineBasic.CommandLine.Run

/-!
# The program

Reads the arguments and the file, measures the stages, and prints what `Options.report` says. The
journal filter is taken from the environment variable `LINEBASIC_LOG`.
-/

open LineBasic

namespace LineBasic.CommandLine

/-- What there is at a path of the file system. -/
def readPath (path : String) : IO FileContent := do
  try
    return .bytes (← IO.FS.readBinFile path)
  catch e =>
    match e with
    | .noFileOrDirectory .. | .inappropriateType _ _ "not a directory" => return .missing
    | .permissionDenied _ code details | .inappropriateType _ code details
    | .otherError code details => return .unreadable s!"{details} (os error {code})"
    | other => return .unreadable (toString other)

/-- The result of a computation, and how long it took in microseconds. -/
def timed {α : Type} (compute : Unit → α) : IO (α × Nat) := do
  let start ← IO.monoNanosNow
  let result ← IO.lazyPure compute
  let stop ← IO.monoNanosNow
  return (result, (stop - start) / 1000)

/-- Runs the task of the options. -/
def perform (o : Options) (filter : LogFilter) : IO RunOutcome := do
  match o.task.file? with
  | none => return ⟨passList, "", 0⟩
  | some path =>
    match (← readPath path).text path with
    | .error message => return .failure message
    | .ok text =>
      let (parsed, parsing) ← timed fun _ => SourceFile.parsed ⟨path, text⟩
      let (analysed, analysis) ← timed fun _ => parsed.analyze o.task.config
      return o.report filter analysed ⟨parsing, analysis⟩

/-- Prints an outcome; the result is the exit code. -/
def print (outcome : RunOutcome) : IO UInt32 := do
  (← IO.getStderr).putStr outcome.errors
  (← IO.getStdout).putStr outcome.output
  return outcome.exitCode.toUInt32

end LineBasic.CommandLine

def main (args : List String) : IO UInt32 := do
  match Options.read args with
  | .error message => CommandLine.print (.usage message)
  | .ok o =>
    let (filter, faults) := o.logFilter (← IO.getEnv "LINEBASIC_LOG")
    let outcome ← CommandLine.perform o filter
    CommandLine.print { outcome with errors := Options.filterWarnings faults ++ outcome.errors }
