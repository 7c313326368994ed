import ClausalForm.CommandLine.Outcome

/-!
# The program

The outer layer: it reads the text that the arguments ask for, takes the times of the passes, and
writes what comes of it.
-/

namespace ClausalForm.CommandLine

/-- The failure to read a text. -/
def readErrorOf : IO.Error → ReadError
  | .noFileOrDirectory .. => .notFound
  | .inappropriateType .. => .isDirectory
  | e => .other (toString e)

/-- The text at a source, or the failure to read it. -/
def readSource : Source → IO (Except ReadError String)
  | .argument text => return .ok text
  | .standardInput => do
    try
      return .ok (← (← IO.getStdin).readToEnd)
    catch e => return .error (readErrorOf e)
  | .file path => do
    try
      return .ok (← IO.FS.readFile path)
    catch e => return .error (readErrorOf e)

/-- How many nanoseconds it takes to come to a value. The cell keeps the work between the two
readings of the clock. -/
def nanosecondsOf {α : Type} (work : Unit → α) : IO Nat := do
  let start ← IO.monoNanosNow
  let _ ← IO.mkRef (work ())
  return (← IO.monoNanosNow) - start

/-- The times of a normalization that succeeds, if they are asked for. Every pass is gone through
once more for its own time. -/
def measure (text : String) : Action → IO Timing
  | .normalize options _ true => do
    match (normalizeText options text).result with
    | .ok (_, r) =>
      let times ← Stage.all.mapM fun stage => nanosecondsOf fun _ => r.pass options.limits stage
      return .ofNanoseconds fun stage => times.getD stage.index 0
    | .error _ => return {}
  | _ => return {}

/-- Writes an outcome and answers its exit code. -/
def finish (o : Outcome) : IO UInt32 := do
  IO.print o.stdout
  IO.eprint o.stderr
  return o.exitCode.toUInt32

end ClausalForm.CommandLine

/-- The program. -/
def main (args : List String) : IO UInt32 := do
  match ClausalForm.CommandLine.Invocation.ofArguments args with
  | .error e => ClausalForm.CommandLine.finish (.ofUsageError e)
  | .ok i =>
    let input ← ClausalForm.CommandLine.readSource i.source
    let timing ← match input with
      | .ok text => ClausalForm.CommandLine.measure text i.action
      | .error _ => pure {}
    ClausalForm.CommandLine.finish (i.outcome input timing)
