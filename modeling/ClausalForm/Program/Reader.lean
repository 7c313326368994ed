import ClausalForm.Program

/-!
# Readers

Reading as a machine does it: a reader has the token in front of it, the tokens ahead, a counter of
the depth at which it is, and the diagnostics that it has recorded. Its loops go on as long as the
tokens tell them to, its counter is raised and lowered, and a token that should be an atom is taken
for one. That all of this goes well is no part of the definitions: they break down where it does
not.

A call gets an amount of fuel, of which every further call and every turn of a loop has one unit
less. A reader comes to an end if it does not run out of it, however much it takes.

## Main definitions

* `Reader`: the state of a reader
* `Reader.primary`, `Reader.quantified`, `Reader.expression`, `Reader.connectives`: reading formulas
* `Reader.turn`: reading one statement, or what is to be dropped of it
* `Reader.program`: the program that a reader comes to
-/

namespace ClausalForm

/-- The ways in which a reader breaks down. -/
inductive Breakdown where
  /-- The fuel is used up. -/
  | outOfFuel
  /-- The counter is lowered below zero. -/
  | belowZero
  /-- A token is taken for an atom and is none. -/
  | notAnAtom
deriving DecidableEq, Repr

/-- The state of a reader. -/
structure Reader where
  /-- The token in front; an end that is made up where there is none. -/
  front : Located
  ahead : List Located
  depth : Nat
  passed : List Diagnostic
deriving DecidableEq, Repr

namespace Reader

/-- A part of a run, which a reader may break down in. -/
abbrev Run (α : Type) := StateT Reader (Except Breakdown) α

/-- What reading a formula comes to: a fault that costs the statement, nothing because the end was
reached, or a formula. -/
abbrev Answer := Except Diagnostic (Option Formula)

/-- A reader in front of a token sequence. -/
def start (ts : List Located) : Reader :=
  ⟨ts.headD ⟨.eof, 0⟩, ts.tail, 0, []⟩

/-- The tokens that are still to be read: none once the end is in front. -/
def unread (c : Reader) : List Located :=
  if c.front.token = .eof then [] else c.front :: c.ahead

/-! ### Single actions -/

/-- Takes the token in front. After the last token the end is in front, at the same offset. -/
def next : Run Located := do
  let c ← get
  set { c with front := c.ahead.headD ⟨.eof, c.front.offset⟩, ahead := c.ahead.tail }
  return c.front

/-- Passes over the token in front. -/
def skip : Run Unit := do
  let _ ← next
  return ()

/-- Records a diagnostic. -/
def warn (d : Diagnostic) : Run Unit :=
  modify fun c => { c with passed := c.passed ++ [d] }

/-- Sets the counter. -/
def setDepth (n : Nat) : Run Unit :=
  modify fun c => { c with depth := n }

/-- Raises the counter. -/
def raise : Run Unit :=
  modify fun c => { c with depth := c.depth + 1 }

/-- Lowers the counter. -/
def lower : Run Unit := do
  match (← get).depth with
  | 0 => throw .belowZero
  | n + 1 => setDepth n

/-- Attempts something one level deeper, unless this is more than `limit` levels. -/
def nested (limit : Nat) (attempt : Run Answer) : Run Answer := do
  let c ← get
  if limit ≤ c.depth then
    return .error ⟨.nestingTooDeep limit, c.front.offset⟩
  else
    raise
    let answer ← attempt
    lower
    return answer

/-- Takes a proposition or a variable. -/
def atom : Run Formula := do
  match (← next).token with
  | .prop p args _ => return .prop p (args.map .var)
  | .var x => return .var x
  | _ => throw .notAnAtom

/-- Takes the closing parenthesis for the one at `offset`, unless something else is in front. -/
def close (offset : Nat) : Run Unit := do
  if (← get).front.token = .closeParen then
    skip
  else
    warn ⟨.unclosedParen, offset⟩

/-- The operand of the command `c` at `offset`, which must be there, put into its place. -/
def Answer.operand (c : Command) (offset : Nat) (build : Formula → Formula) : Answer → Answer
  | .ok (some f) => .ok (some (build f))
  | .ok none => .error ⟨.missingOperand c, offset⟩
  | .error d => .error d

/-! ### Formulas -/

mutual

/-- Reads a primary. Stray tokens are passed over. -/
def primary (limit : Nat) : (fuel : Nat) → Run Answer
  | 0 => throw .outOfFuel
  | fuel + 1 => do
    match (← get).front.token with
    | .command (.quantifier q) => quantified limit q fuel
    | .command .neg =>
      let t ← next
      let answer ← nested limit (primary limit fuel)
      return answer.operand .neg t.offset .neg
    | .openParen =>
      let t ← next
      match ← nested limit (expression limit 0 fuel) with
      | .error d => return .error d
      | .ok inside =>
        close t.offset
        return .ok inside
    | .prop .. | .var _ =>
      let f ← atom
      return .ok (some f)
    | .eof => return .ok none
    | .closeParen | .command (.connective _) =>
      let t ← next
      warn ⟨.unexpectedToken t.token, t.offset⟩
      primary limit fuel

/-- Reads a quantifier, its variable and its body, an expression that no connective is tight enough
for. -/
def quantified (limit : Nat) (q : Quantifier) : (fuel : Nat) → Run Answer
  | 0 => throw .outOfFuel
  | fuel + 1 => do
    let t ← next
    let c ← get
    match c.front.token with
    | .var x =>
      skip
      let answer ← nested limit (expression limit (Quantifier.precedence + 1) fuel)
      return answer.operand (.quantifier q) t.offset (.quant q x)
    | found => return .error ⟨.missingBoundVariable q found, c.front.offset⟩

/-- Reads an expression whose connectives outside parentheses have at least the given strength.
Afterwards the counter is where it was after the first primary. -/
def expression (limit strength : Nat) : (fuel : Nat) → Run Answer
  | 0 => throw .outOfFuel
  | fuel + 1 => do
    match ← primary limit fuel with
    | .ok (some left) =>
      let outer := (← get).depth
      let answer ← connectives limit strength left fuel
      setDepth outer
      return answer.map some
    | answer => return answer

/-- Joins to `left` the connectives that follow, as long as their strength is at least `strength`.
Every join raises the counter. -/
def connectives (limit strength : Nat) (left : Formula) :
    (fuel : Nat) → Run (Except Diagnostic Formula)
  | 0 => throw .outOfFuel
  | fuel + 1 => do
    match (← get).front.token with
    | .command (.connective op) =>
      if strength ≤ op.precedence then
        let t ← next
        if limit ≤ (← get).depth then
          return .error ⟨.nestingTooDeep limit, t.offset⟩
        else
          match ← nested limit (expression limit op.rightStrength fuel) with
          | .ok (some right) =>
            raise
            connectives limit strength (.binary op left right) fuel
          | .ok none =>
            warn ⟨.missingOperand (.connective op), t.offset⟩
            return .ok left
          | .error d => return .error d
      else
        return .ok left
    | _ => return .ok left

end

/-! ### Statements -/

/-- Passes over closing parentheses. -/
def recover : (fuel : Nat) → Run Unit
  | 0 => throw .outOfFuel
  | fuel + 1 => do
    if (← get).front.token = .closeParen then
      skip
      recover fuel

/-- Reads a statement. After a fault that costs it, passes over what cannot start the next one. -/
def turn (limit fuel : Nat) : Run (Option Formula) := do
  setDepth 0
  match ← expression limit 0 fuel with
  | .ok statement => return statement
  | .error d =>
    warn d
    recover fuel
    return none

/-- Reads statements until the end is in front. -/
def statements (limit : Nat) : (fuel : Nat) → Run (List Formula)
  | 0 => throw .outOfFuel
  | fuel + 1 => do
    if (← get).front.token = .eof then
      return []
    else
      let statement ← turn limit fuel
      let others ← statements limit fuel
      return statement.toList ++ others

/-- The program that a reader comes to. -/
def program (limit fuel : Nat) (ts : List Located) : Except Breakdown Program := do
  let (fs, c) ← (statements limit fuel).run (start ts)
  return ⟨fs, c.passed⟩

end Reader

end ClausalForm
