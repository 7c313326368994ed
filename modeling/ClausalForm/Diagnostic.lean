import ClausalForm.Token

/-!
# Faults of a source text

What can be wrong with a text. A lexical fault ends the reading of the text. A syntax fault only
costs the tokens or the statement that it concerns, and is recorded as a diagnostic.

## Main definitions

* `LexError`, `LexFault`: a lexical fault and where it is
* `SyntaxError`, `Diagnostic`: a syntax fault and where it is
* `SyntaxError.isFatal`: whether the fault costs the whole statement
-/

namespace ClausalForm

/-- The ways in which a text has no tokens. -/
inductive LexError where
  /-- A backslash is followed by a word that names no command. -/
  | unknownCommand (word : String)
  /-- An argument list holds something other than small letters, commas and blanks. -/
  | malformedArguments (c : Char)
deriving DecidableEq, Repr

/-- The wording of a lexical fault. -/
def LexError.message : LexError → String
  | unknownCommand word => "unrecognized command '\\" ++ word ++ "'"
  | malformedArguments c => "unexpected character '" ++ c.toString ++ "' in proposition arguments"

/-- A lexical fault at an offset. -/
structure LexFault where
  error : LexError
  offset : Nat
deriving DecidableEq, Repr

/-- A wording with the offset that it concerns. -/
def atOffset (message : String) (offset : Nat) : String :=
  message ++ " (at offset " ++ toString offset ++ ")"

/-- The wording of a lexical fault with its offset. -/
def LexFault.message (f : LexFault) : String :=
  atOffset ("lexer error: " ++ f.error.message) f.offset

/-- The ways in which a token sequence departs from the grammar. -/
inductive SyntaxError where
  /-- The token after a quantifier is not a variable. -/
  | missingBoundVariable (q : Quantifier) (found : Token)
  /-- No formula follows a command that needs one. -/
  | missingOperand (c : Command)
  /-- The token cannot start a formula; it is skipped. -/
  | unexpectedToken (t : Token)
  /-- An opening parenthesis has no closing one. -/
  | unclosedParen
  /-- The formula needs more levels than the limit. -/
  | nestingTooDeep (limit : Nat)
deriving DecidableEq, Repr

/-- The wording for a formula with more levels than the limit. -/
def tooDeepMessage (limit : Nat) : String :=
  "formula is nested more than " ++ toString limit ++ " levels deep"

namespace SyntaxError

/-- The wording of a syntax fault. -/
def message : SyntaxError → String
  | missingBoundVariable q found =>
    "expected variable after '" ++ q.symbol ++ "', got '" ++ found.render ++ "'"
  | missingOperand c => "missing operand for '" ++ c.symbol ++ "'"
  | unexpectedToken t => "unexpected token: '" ++ t.render ++ "'"
  | unclosedParen => "missing closing parenthesis"
  | nestingTooDeep limit => tooDeepMessage limit

/-- Whether the fault costs the statement it is in. A connective that lacks its right operand, a
stray token and an open parenthesis do not. -/
def isFatal : SyntaxError → Bool
  | missingBoundVariable .. | nestingTooDeep _ => true
  | missingOperand c => c.connective?.isNone
  | unexpectedToken _ | unclosedParen => false

end SyntaxError

/-- A syntax fault at an offset. -/
structure Diagnostic where
  error : SyntaxError
  offset : Nat
deriving DecidableEq, Repr

/-- The wording of a diagnostic with its offset. -/
def Diagnostic.message (d : Diagnostic) : String :=
  atOffset d.error.message d.offset

end ClausalForm
