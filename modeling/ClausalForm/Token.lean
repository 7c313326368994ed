import ClausalForm.Connective

/-!
# Tokens

The words of the formula notation: parentheses, propositions with their argument lists, single
variables, and commands, which are a backslash and a word that names a connective, the negation or
a quantifier.

## Main definitions

* `Command`, `Command.ofWord?`: a command and the words that name it
* `Token`, `Token.render`: a token and the text that shows it
* `Located`: a token with its offset in the source
-/

namespace ClausalForm

/-- What a backslash command stands for. -/
inductive Command where
  | connective (op : Connective)
  | neg
  | quantifier (q : Quantifier)
deriving DecidableEq, Repr, Inhabited

namespace Command

/-- The words that name commands. The first word of a command is its canonical one. -/
def words : List (String × Command) :=
  [("land", connective .conj), ("wedge", connective .conj),
    ("lor", connective .disj), ("vee", connective .disj),
    ("neg", neg), ("sim", neg),
    ("implies", connective .implies), ("rightarrow", connective .implies),
    ("iff", connective .iff), ("leftrightarrow", connective .iff),
    ("forall", quantifier .universal), ("exists", quantifier .existential)]

/-- The command that a word names. -/
def ofWord? (word : String) : Option Command :=
  words.lookup word

/-- The canonical written form of a command, whichever word named it. -/
def symbol : Command → String
  | connective op => op.symbol
  | neg => "\\neg"
  | quantifier q => q.symbol

/-- The connective of a command, if it is one. -/
def connective? : Command → Option Connective
  | connective op => some op
  | _ => none

/-- The quantifier of a command, if it is one. -/
def quantifier? : Command → Option Quantifier
  | quantifier q => some q
  | _ => none

end Command

/-- A token of the notation. -/
inductive Token where
  | openParen
  | closeParen
  /-- A capital letter and the small letters after it, with the argument list that follows
  directly, if one does. `text` is the token as it was written. -/
  | prop (name : String) (args : List String) (text : String)
  /-- A single small letter. -/
  | var (name : String)
  | command (c : Command)
  /-- The end of the source. -/
  | eof
deriving DecidableEq, Repr, Inhabited

namespace Token

/-- The text that shows a token: commands canonically, all other tokens as written. -/
def render : Token → String
  | openParen => "("
  | closeParen => ")"
  | prop _ _ text => text
  | var x => x
  | command c => c.symbol
  | eof => "EOF"

instance : ToString Token := ⟨render⟩

end Token

/-- A token with the number of characters before it. -/
structure Located where
  token : Token
  offset : Nat
deriving DecidableEq, Repr, Inhabited

end ClausalForm
