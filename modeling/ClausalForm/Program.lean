import ClausalForm.Program.Reading
import ClausalForm.Token.Scanning

/-!
# Programs

A program is what a text says: its statements in order, and the diagnostics of the faults that
were met on the way. Once a text has tokens it has a program, since every syntax fault is either
passed over or costs the statement that it is in.

## Main definitions

* `Program`: statements and diagnostics
* `Program.ofTokens`: the program of a token sequence
* `Program.ofText`: the program of a text
-/

namespace ClausalForm

/-- Statements in order, and the diagnostics of what is wrong between and inside them. -/
structure Program where
  statements : List Formula
  diagnostics : List Diagnostic
deriving DecidableEq, Repr

namespace Program

open Reading (Reply expression expression_progress)

/-- Whether there is no statement. -/
def isEmpty (p : Program) : Bool := p.statements.isEmpty

/-- Whether a syntax fault was met. -/
def hasDiagnostics (p : Program) : Bool := !p.diagnostics.isEmpty

/-- A program with earlier statements and diagnostics. -/
def after (statements : List Formula) (diagnostics : List Diagnostic) (p : Program) : Program :=
  ⟨statements ++ p.statements, diagnostics ++ p.diagnostics⟩

/-- The tokens at which reading resumes after a statement is dropped: closing parentheses cannot
start one. -/
def dropCloseParens (ts : List Located) : List Located :=
  ts.dropWhile fun t => t.token == .closeParen

theorem length_dropCloseParens_le (ts : List Located) :
    (dropCloseParens ts).length ≤ ts.length :=
  (List.dropWhile_suffix _).length_le

/-- Reads statements until the end. `last` is the offset of the last token. -/
def read (limit last : Nat) (ts : List Located) : Program :=
  if Reading.frontToken ts = .eof then ⟨[], []⟩
  else
    match _h : expression limit last limit 0 ts with
    | .formula f rest passed => (read limit last rest).after [f] passed
    | .nothing _ passed => ⟨[], passed⟩
    | .fault d rest passed => (read limit last (dropCloseParens rest)).after [] (passed ++ [d])
termination_by ts.length
decreasing_by
  · have := (expression_progress limit last limit 0 ts).2
    simp_all [Reply.rest, Reply.isNothing]
  · have := (expression_progress limit last limit 0 ts).2
    have := length_dropCloseParens_le rest
    simp_all [Reply.rest, Reply.isNothing]
    omega

/-- The offset of the last token, zero if there is none. -/
def lastOffset (ts : List Located) : Nat :=
  (ts.getLast?.map (·.offset)).getD 0

/-- The program of a token sequence, whose statements may have up to `limit` nesting levels. The
sequence ends at its first end token, or, if it has none, after its last token. -/
def ofTokens (limit : Nat) (ts : List Located) : Program :=
  read limit (lastOffset ts) ts

/-- The events of a program: one for each diagnostic. -/
def events (p : Program) : List Event :=
  p.diagnostics.map .diagnosed

/-- The program of a text, unless the text has a lexical fault. -/
def ofText (limit : Nat) (text : String) : Journal LexFault Program := do
  let ts ← tokenize text
  let p := ofTokens limit ts
  ⟨p.events, .ok p⟩

end Program

end ClausalForm
