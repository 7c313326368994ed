import ClausalForm.CommandLine.Outcome

/-!
# Sessions

A request carried out step by step: every line is written at once and every event is reported when
it happens, until the work is done or an error puts an end to it. What has been written by then
stays written, so that the definitions do not say whether a result that is shown is complete.

## Main definitions

* `SessionError`: what puts an end to a session
* `Streams`, `Session`: what has been written, and a part of a session
* `Session.tokens`, `Session.parse`, `Session.normalize`, `Session.clauses`: the work of each
  subcommand
* `Invocation.carryOut`: what a session leaves behind
-/

namespace ClausalForm.CommandLine

/-- What puts an end to a session. -/
inductive SessionError where
  /-- There is no text to work on. -/
  | input (e : ReadError)
  /-- The library has failed. -/
  | library (e : Failure)

/-- The wording of an error. -/
def SessionError.message : SessionError → String
  | input e => e.message
  | library e => e.message

/-- What has been written so far. -/
structure Streams where
  stdout : String := ""
  stderr : String := ""
deriving DecidableEq, Repr

/-- A part of a session. It writes, and may end with an error. -/
abbrev Session (α : Type) := ExceptT SessionError (StateM Streams) α

namespace Session

/-! ### Single actions -/

/-- Writes a line of the result. -/
def printLine (line : String) : Session Unit :=
  modify fun s => { s with stdout := s.stdout ++ line ++ "\n" }

/-- Reports an event, if it is severe enough. -/
def report (threshold : Option Level) (e : Event) : Session Unit :=
  if e.level.isShown threshold then
    modify fun s => { s with stderr := s.stderr ++ eventLine e ++ "\n" }
  else
    pure ()

/-- Takes the text that was read. -/
def input : Except ReadError String → Session String
  | .ok text => pure text
  | .error e => throw (.input e)

/-- Calls the library, which reports its events before it answers or fails. -/
def call {α : Type} (threshold : Option Level) (x : Journal Failure α) : Session α := do
  forM x.events (report threshold)
  match x.result with
  | .ok a => pure a
  | .error e => throw (.library e)

/-! ### Subcommands -/

section Subcommands

variable (threshold : Option Level) (source : Except ReadError String) (timing : Timing)

/-- Shows one token after the other. -/
def tokens : Session Unit := do
  let text ← input source
  let ts ← call threshold ((tokenize text).mapError .lexical)
  forM ts fun t => printLine (tokenLine t)

/-- Shows one statement after the other, and reports afterwards how many faults there were. -/
def parse (nesting : Nat) : Session Unit := do
  let text ← input source
  let p ← call threshold (parseText nesting text)
  forM p.statements fun f => printLine f.render
  if p.hasDiagnostics then
    report threshold (.recovered p.diagnostics.length)

/-- Goes through the stages and shows those that are chosen, or all of them if none is. If asked for
the times, it goes through the stages once more and shows what each took, and the total last. -/
def normalize (options : NormalizeOptions) (chosen : List Stage) (stats : Bool) :
    Session Unit := do
  let text ← input source
  let (_, r) ← call threshold (normalizeText options text)
  forM r.stages fun x => do
    if chosen.isEmpty || chosen.contains x.1 then
      printLine (stageLine x)
  if stats then
    forM Stage.all fun stage => printLine (padRight 24 stage.name ++ timing.stage stage)
    printLine (padRight 24 "total" ++ timing.total)

/-- Goes through the reports and shows each clause below its number, and below that its kind. -/
def clauses (options : NormalizeOptions) : Session Unit := do
  let text ← input source
  let (_, r) ← call threshold (normalizeText options text)
  forM r.horn.zipIdx fun x => do
    printLine (toString (x.2 + 1) ++ ": " ++ x.1.clause.render)
    printLine ("   horn: " ++ toString x.1.isHorn ++ ", " ++ x.1.kind.description)

/-- Does what a request asks for. -/
def perform : Action → Session Unit
  | .tokens => tokens threshold source
  | .parse nesting => parse threshold source nesting
  | .normalize options chosen stats => normalize threshold source timing options chosen stats
  | .clauses options => clauses threshold source options

/-- A whole session, which comes to an exit code. An error is reported last. -/
def whole (action : Action) : StateM Streams Nat := do
  match ← (perform threshold source timing action).run with
  | .ok () => return 0
  | .error e =>
    let _ ← (report threshold (.failed e.message)).run
    return 1

end Subcommands

end Session

/-- What a session leaves behind, given the text or the failure to read it, and the times that a
normalization takes. -/
def Invocation.carryOut (i : Invocation) (source : Except ReadError String) (timing : Timing) :
    Outcome :=
  let (exitCode, s) := (Session.whole i.threshold source timing i.action).run {}
  ⟨exitCode, s.stdout, s.stderr⟩

end ClausalForm.CommandLine
