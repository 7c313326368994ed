import ClausalForm.CommandLine.Arguments
import ClausalForm.Normalization

/-!
# Invocations

What the words after the program's name ask for, once they make sense: what to do, where the text
is, and what to report.

## Main definitions

* `Source`: where the text is
* `Action`: what to do with it
* `Invocation`, `Invocation.ofArguments`: the whole request
-/

namespace ClausalForm.CommandLine

/-- Where the text is. -/
inductive Source where
  /-- In the arguments. -/
  | argument (text : String)
  | standardInput
  | file (path : String)
deriving DecidableEq, Repr

/-- What to do with the text. -/
inductive Action where
  /-- Show its tokens. -/
  | tokens
  /-- Show its statements. -/
  | parse (nesting : Nat)
  /-- Show a statement at the chosen stages, or at all if none is chosen. -/
  | normalize (options : NormalizeOptions) (stages : List Stage) (stats : Bool)
  /-- Show the clauses of a statement and their kinds. -/
  | clauses (options : NormalizeOptions)
deriving DecidableEq, Repr

/-- A request to the program. -/
structure Invocation where
  /-- The least severe level of the events to report, if any are. -/
  threshold : Option Level
  source : Source
  action : Action
deriving DecidableEq, Repr

namespace Invocation

/-- The threshold that a word stands for. -/
def thresholdOfName? : String → Option (Option Level)
  | "off" => some none
  | "error" => some (some .error)
  | "warn" => some (some .warn)
  | "info" => some (some .info)
  | "debug" => some (some .debug)
  | _ => none

/-- The number that a word stands for: digits, perhaps behind a plus sign, that fit into 64 bits. -/
def numberOfWord? (word : String) : Option Nat :=
  let digits := match word.toList with
    | '+' :: cs => cs
    | cs => cs
  if digits.isEmpty || !digits.all Char.isDigit then none
  else
    let n := digits.foldl (fun n c => 10 * n + (c.toNat - '0'.toNat)) 0
    if n < UInt64.size then some n else none

/-- The number given for an option, or the default. -/
def number (g : Given) (s : Setting) (default : Nat) : Except UsageError Nat := do
  match ← g.value? s with
  | none => return default
  | some word =>
    match numberOfWord? word with
    | some n => return n
    | none => .error (.invalidValue s word)

/-- The threshold given on one side of the subcommand, if one is. -/
def threshold? (g : Given) : Except UsageError (Option (Option Level)) := do
  match ← g.value? .log with
  | none => return none
  | some word =>
    match thresholdOfName? word with
    | some t => return some t
    | none => .error (.invalidValue .log word)

/-- Where the text is: an operand names a file, a single hyphen the standard input. -/
def sourceOf (g : Given) : Except UsageError Source := do
  match ← g.value? .expr, g.operands with
  | some text, [] => return .argument text
  | none, ["-"] => return .standardInput
  | none, [path] => return .file path
  | _, _ => .error .inputNotChosen

/-- How a text is to be normalized. One number bounds both the nesting and the passes. -/
def optionsOf (g : Given) : Except UsageError NormalizeOptions := do
  let default : NormalizeOptions := {}
  let depth ← number g .maxDepth default.nesting
  let suffix ← number g .maxSuffix default.limits.suffix
  let statement ← number g .statement default.statement
  return ⟨depth, ⟨depth, suffix⟩, statement⟩

/-- What to do with the text. -/
def actionOf (command : Subcommand) (g : Given) : Except UsageError Action :=
  match command with
  | .tokens => return .tokens
  | .parse => return .parse (← optionsOf g).nesting
  | .normalize => do
    let options ← optionsOf g
    let stages ← g.values .stage
    return .normalize options (stages.filterMap Stage.ofName?) (← g.isSet .stats)
  | .clauses => return .clauses (← optionsOf g)

/-- The request that the words after the program's name make. A threshold after the subcommand
takes precedence over one before it, and without any warnings are reported. -/
def ofArguments (words : List String) : Except UsageError Invocation := do
  let (before, command, words) ← Given.read none false {} words
  match command with
  | none => .error .missingSubcommand
  | some command => do
    let (g, _, _) ← Given.read (some command) false {} words
    let source ← sourceOf g
    let action ← actionOf command g
    let inner ← threshold? g
    let outer ← threshold? before
    let _ ← g.isSet .noColor
    let _ ← before.isSet .noColor
    return ⟨(inner.or outer).getD (some .warn), source, action⟩

end Invocation

end ClausalForm.CommandLine
