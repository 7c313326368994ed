import ClausalForm.CommandLine.Invocation
import ClausalForm.CommandLine.Timing

/-!
# Outcomes

What the program does with a request: the lines that it shows, the events that it reports, and its
exit code. Nothing is shown if anything fails. The text and the times that a normalization takes
come from outside.

## Main definitions

* `ReadError`: the ways in which there is no text
* `Action.perform`: the lines to show for a text
* `Outcome`, `Invocation.outcome`: what a request comes to once its text is read
* `Outcome.ofUsageError`: what words that make no sense come to
-/

namespace ClausalForm.CommandLine

/-- The ways in which there is no text to work on. -/
inductive ReadError where
  | notFound
  | isDirectory
  /-- Any other failure of the system, in its own words. -/
  | other (reason : String)
deriving DecidableEq, Repr

/-- The wording of a failure to read. -/
def ReadError.message : ReadError → String
  | notFound => "IO error: No such file or directory (os error 2)"
  | isDirectory => "IO error: Is a directory (os error 21)"
  | other reason => "IO error: " ++ reason

/-- The text filled up with blanks on the left. -/
def padLeft (width : Nat) (text : String) : String :=
  String.ofList (List.replicate (width - text.length) ' ') ++ text

/-- The text filled up with blanks on the right. -/
def padRight (width : Nat) (text : String) : String :=
  text ++ String.ofList (List.replicate (width - text.length) ' ')

/-- The lines as one text. -/
def unlines (lines : List String) : String :=
  String.join (lines.map (· ++ "\n"))

/-! ### Lines to show -/

/-- The line for a token: its offset and its text. -/
def tokenLine (t : Located) : String :=
  padLeft 5 (toString t.offset) ++ "  " ++ t.token.render

/-- The line for a stage. -/
def stageLine (x : Stage × Formula) : String :=
  x.1.name ++ ": " ++ x.2.render

/-- The lines for the stages of a normalization, or for the chosen ones if any are. -/
def stageLines (chosen : List Stage) (r : Normalization) : List String :=
  (r.stages.filter fun x => chosen.isEmpty || chosen.contains x.1).map stageLine

/-- The line for a time, behind a label that is filled up to 24 characters. -/
def timeLine (label time : String) : String :=
  padRight 24 label ++ time

/-- The lines for the times of the stages, and for their total. -/
def timeLines (timing : Timing) : List String :=
  (Stage.all.map fun stage => timeLine stage.name (timing.stage stage)) ++
    [timeLine "total" timing.total]

/-- The two lines for the clause at a position, counted from zero. -/
def clauseLines (x : HornReport × Nat) : List String :=
  [toString (x.2 + 1) ++ ": " ++ x.1.clause.render,
    "   horn: " ++ toString x.1.isHorn ++ ", " ++ x.1.kind.description]

/-- The lines to show for a text, where a normalization takes these times. -/
def Action.perform (text : String) (timing : Timing) : Action → Journal Failure (List String)
  | tokens => do
    let ts ← (tokenize text).mapError .lexical
    return ts.map tokenLine
  | parse nesting => do
    let p ← parseText nesting text
    if p.hasDiagnostics then .report (.recovered p.diagnostics.length)
    return p.statements.map Formula.render
  | normalize options stages stats => do
    let (_, r) ← normalizeText options text
    return stageLines stages r ++ if stats then timeLines timing else []
  | clauses options => do
    let (_, r) ← normalizeText options text
    return r.horn.zipIdx.flatMap clauseLines

/-! ### Events to report -/

/-- The part of the program that an event comes from. -/
def Event.channel : Event → String
  | .ignored .. => "prenex::parser::lexer"
  | .diagnosed _ => "prenex::parser"
  | .renamed .. => "prenex::transform::standardize"
  | .replaced .. => "prenex::transform::skolem"
  | .reached .. | .counted .. => "prenex::pipeline"
  | .selected .. | .recovered _ | .failed _ => "prenex"

/-- The line for an event. Detailed events say where they come from. The log is taken to be no
terminal, so that the label is not coloured. -/
def eventLine (e : Event) : String :=
  let origin := if e.level.isShown (some .info) then "" else Event.channel e ++ ": "
  "[" ++ e.level.label ++ "] " ++ origin ++ e.message

/-- The lines for the events that are severe enough. -/
def eventLines (threshold : Option Level) (es : List Event) : List String :=
  (es.filter fun e => e.level.isShown threshold).map eventLine

/-! ### Outcomes -/

/-- What the program leaves behind. -/
structure Outcome where
  exitCode : Nat
  stdout : String
  stderr : String
deriving DecidableEq, Repr

/-- What words that make no sense come to. -/
def Outcome.ofUsageError (e : UsageError) : Outcome :=
  ⟨2, "", e.message⟩

/-- What a piece of work comes to: its lines are shown only if it succeeds, and its error is the
last event otherwise. -/
def Outcome.ofJournal {ε : Type} (threshold : Option Level) (message : ε → String)
    (x : Journal ε (List String)) : Outcome :=
  match x.result with
  | .ok lines => ⟨0, unlines lines, unlines (eventLines threshold x.events)⟩
  | .error e =>
    ⟨1, "", unlines (eventLines threshold (x.events ++ [.failed (message e)]))⟩

/-- What a request comes to, given its text or the failure to read it, and the times that a
normalization takes. Where no clock is at hand, their texts are left out. -/
def Invocation.outcome (i : Invocation) (text : Except ReadError String) (timing : Timing := {}) :
    Outcome :=
  match text with
  | .error e => .ofJournal i.threshold ReadError.message ⟨[], .error e⟩
  | .ok text => .ofJournal i.threshold Failure.message (i.action.perform text timing)

end ClausalForm.CommandLine
