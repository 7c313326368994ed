import ClausalForm.Stage

/-!
# Arguments

The words after the program's name, taken apart into options with their values and operands. A
word is an option if it starts with a hyphen and has more than that; the word `--` ends the
options. An option takes its value from behind an equals sign, and otherwise from the next word,
unless that word is an option.

## Main definitions

* `Subcommand`, `Setting`: what the program can be asked to do, and the options
* `Word`: the shape of a word
* `Given`, `Given.read`: the options and operands of a sequence of words
* `UsageError`: the ways in which the words make no sense
-/

namespace ClausalForm.CommandLine

/-- What the program is asked to do. -/
inductive Subcommand where
  | tokens
  | parse
  | normalize
  | clauses
deriving DecidableEq, Repr

namespace Subcommand

/-- Every subcommand. -/
def all : List Subcommand := [tokens, parse, normalize, clauses]

/-- The word that asks for a subcommand. -/
def name : Subcommand → String
  | tokens => "tokens"
  | parse => "parse"
  | normalize => "normalize"
  | clauses => "clauses"

/-- The subcommand that a word asks for. -/
def ofName? (word : String) : Option Subcommand :=
  all.find? fun command => command.name == word

end Subcommand

/-- An option. -/
inductive Setting where
  | log
  | noColor
  | expr
  | maxDepth
  | maxSuffix
  | statement
  | stage
  | stats
deriving DecidableEq, Repr

namespace Setting

/-- Every option. -/
def all : List Setting :=
  [log, noColor, expr, maxDepth, maxSuffix, statement, stage, stats]

/-- The long name of an option. -/
def name : Setting → String
  | log => "log"
  | noColor => "no-color"
  | expr => "expr"
  | maxDepth => "max-depth"
  | maxSuffix => "max-suffix"
  | statement => "statement"
  | stage => "stage"
  | stats => "stats"

/-- The one-letter name of an option. -/
def letter? : Setting → Option Char
  | expr => some 'e'
  | _ => none

/-- Whether an option has a value. -/
def takesValue : Setting → Bool
  | noColor | stats => false
  | _ => true

/-- Whether an option may stand after the subcommand, or, where there is none yet, before it. -/
def isKnown (command : Option Subcommand) : Setting → Bool
  | log | noColor => true
  | expr => command.isSome
  | maxDepth => [some .parse, some .normalize, some .clauses].contains command
  | maxSuffix | statement => [some .normalize, some .clauses].contains command
  | stage | stats => command == some .normalize

end Setting

/-- The ways in which the words after the program's name make no sense. -/
inductive UsageError where
  /-- There is no option of this name here. -/
  | unknownOption (word : String)
  /-- There is no subcommand of this name. -/
  | unknownSubcommand (word : String)
  /-- There is no subcommand. -/
  | missingSubcommand
  /-- An operand too many. -/
  | unexpectedOperand (word : String)
  /-- A value for an option that has none. -/
  | unexpectedValue (s : Setting)
  /-- No value for an option that has one. -/
  | missingValue (s : Setting)
  /-- A value that the option cannot have. -/
  | invalidValue (s : Setting) (value : String)
  /-- There is no stage of this name. -/
  | unknownStage (name : String)
  /-- An option given twice. -/
  | repeated (s : Setting)
  /-- Both a file and a formula, or neither. -/
  | inputNotChosen
deriving DecidableEq, Repr

/-- The wording of a usage error. Only an unknown stage is explained. -/
def UsageError.message : UsageError → String
  | unknownStage name =>
    "unknown stage '" ++ name ++ "', expected one of: " ++
      ", ".intercalate (Stage.all.map Stage.name)
  | _ => ""

/-- The shape of a word. -/
inductive Word where
  /-- The word that ends the options. -/
  | endOfOptions
  /-- An option by its long name, perhaps with a value. -/
  | long (name : String) (value : Option String)
  /-- An option by its letter, perhaps with a value. -/
  | short (letter : Char) (value : Option String)
  /-- Anything else: a value, an operand or a subcommand. -/
  | bare (text : String)
deriving DecidableEq, Repr

/-- The name and the value of a long option, parted at the first equals sign. -/
def splitValue (cs : List Char) : String × Option String :=
  match cs.dropWhile (· != '=') with
  | [] => (String.ofList cs, none)
  | _ :: value => (String.ofList (cs.takeWhile (· != '=')), some (String.ofList value))

/-- The value behind a letter. An equals sign may stand between. -/
def attachedValue : List Char → Option String
  | [] => none
  | '=' :: value => some (String.ofList value)
  | value => some (String.ofList value)

/-- The shape of a word. A single hyphen is no option. -/
def Word.ofString (word : String) : Word :=
  match word.toList with
  | ['-', '-'] => endOfOptions
  | '-' :: '-' :: cs => long (splitValue cs).1 (splitValue cs).2
  | '-' :: c :: cs => short c (attachedValue cs)
  | _ => bare word

/-- The options and operands read so far on one side of the subcommand. -/
structure Given where
  /-- The options that are settled, in order, with their values. -/
  settings : List (Setting × Option String) := []
  /-- The last option, while its value may still come or is not checked. -/
  pending : Option (Setting × Option String) := none
  /-- The operands, in order. -/
  operands : List String := []
deriving DecidableEq, Repr

namespace Given

/-- The value of an option, checked as soon as it is settled: stages must have a name that there
is. -/
def checkEarly : Setting × Option String → Except UsageError Unit
  | (.stage, some name) =>
    if (Stage.ofName? name).isSome then .ok () else .error (.unknownStage name)
  | _ => .ok ()

/-- Settles the last option. -/
def settle (g : Given) : Except UsageError Given :=
  match g.pending with
  | none => .ok g
  | some x => do
    checkEarly x
    return { g with settings := g.settings ++ [x], pending := none }

/-- Adds an option with the value that is attached to it. -/
def addOption (g : Given) (s : Setting) (value : Option String) : Except UsageError Given :=
  match s.takesValue, value with
  | true, some v => do
    let g ← g.settle
    settle { g with pending := some (s, some v) }
  | true, none => return { ← g.settle with pending := some (s, none) }
  | false, none => do
    let g ← g.settle
    settle { g with pending := some (s, none) }
  | false, some _ => .error (.unexpectedValue s)

/-- The option that waits for its value. -/
def awaiting? (g : Given) : Option Setting :=
  match g.pending with
  | some (s, none) => some s
  | _ => none

/-- Adds an operand, of which there may be one. -/
def addOperand (g : Given) (word : String) : Except UsageError Given :=
  if g.operands.isEmpty then return { ← g.settle with operands := [word] }
  else .error (.unexpectedOperand word)

/-- The option that a word names on this side of the subcommand. -/
def named (command : Option Subcommand) (word : String) (p : Setting → Bool) :
    Except UsageError Setting :=
  match Setting.all.find? fun s => p s && s.isKnown command with
  | some s => .ok s
  | none => .error (.unknownOption word)

/-- Reads the words after the subcommand, or, where there is none yet, those before it. `ended`
says whether the options have ended. Also answers the subcommand, if one was found, and the words
that are left after it. -/
def read (command : Option Subcommand) :
    (ended : Bool) → Given → List String →
      Except UsageError (Given × Option Subcommand × List String)
  | _, g, [] => return (← g.settle, command, [])
  | true, g, word :: words =>
    match command with
    | none => .error (.unexpectedOperand word)
    | some _ => do read command true (← g.addOperand word) words
  | false, g, word :: words =>
    match Word.ofString word with
    | .endOfOptions => read command true g words
    | .long name value => do
      let s ← named command word (·.name == name)
      read command false (← g.addOption s value) words
    | .short letter value => do
      let s ← named command word (·.letter? == some letter)
      read command false (← g.addOption s value) words
    | .bare text =>
      match g.awaiting?, command with
      | some s, _ => read command false { g with pending := some (s, some text) } words
      | none, some _ => do read command false (← g.addOperand text) words
      | none, none =>
        match Subcommand.ofName? text with
        | some c => return (← g.settle, some c, words)
        | none => .error (.unknownSubcommand text)

/-! ### What was given -/

/-- The occurrences of an option. -/
def occurrences (g : Given) (s : Setting) : List (Option String) :=
  (g.settings.filter fun x => x.1 = s).map Prod.snd

/-- Whether an option without a value was given. It may be given once. -/
def isSet (g : Given) (s : Setting) : Except UsageError Bool :=
  match g.occurrences s with
  | [] => .ok false
  | [_] => .ok true
  | _ => .error (.repeated s)

/-- The value of an option, if it was given. It may be given once. -/
def value? (g : Given) (s : Setting) : Except UsageError (Option String) :=
  match g.occurrences s with
  | [] => .ok none
  | [some v] => .ok (some v)
  | [none] => .error (.missingValue s)
  | _ => .error (.repeated s)

/-- The values of an option that may be given again and again. One value is enough for all its
occurrences. -/
def values (g : Given) (s : Setting) : Except UsageError (List String) :=
  let found := g.occurrences s
  let values := found.filterMap id
  if values.isEmpty && !found.isEmpty then .error (.missingValue s) else .ok values

end Given

end ClausalForm.CommandLine
