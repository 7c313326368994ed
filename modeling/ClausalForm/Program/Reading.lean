import ClausalForm.Diagnostic
import ClausalForm.Formula

/-!
# Reading formulas from tokens

A primary is an atom, a negated primary, a quantifier with its variable and a primary, or an
expression in parentheses. An expression is a primary and any number of connectives with their
right operands, joined by strength. Every negation, quantifier and parenthesis, every right operand
and every join costs one nesting level; the levels still free are the argument by which reading
descends.

## Main definitions

* `Reply`: what an attempt to read a formula comes to
* `primary`, `connectives`, `expression`: the attempts

## Main results

* `expression_progress`: an attempt that does not find the end takes at least one token
-/

namespace ClausalForm.Reading

/-! ### Replies -/

/-- What an attempt to read a formula comes to. Each outcome holds the tokens that are left and
the faults that were met and passed over. -/
inductive Reply where
  /-- A formula was read. -/
  | formula (f : Formula) (rest : List Located) (passed : List Diagnostic)
  /-- The end was reached before a formula. -/
  | nothing (rest : List Located) (passed : List Diagnostic)
  /-- A fault that costs the statement was met. -/
  | fault (d : Diagnostic) (rest : List Located) (passed : List Diagnostic)
deriving DecidableEq, Repr

namespace Reply

/-- The tokens that are left. -/
def rest : Reply → List Located
  | formula _ rest _ | nothing rest _ | fault _ rest _ => rest

/-- Whether the end was reached before a formula. -/
def isNothing : Reply → Bool
  | nothing .. => true
  | _ => false

/-- A reply with faults that were passed over before it. -/
def after (earlier : List Diagnostic) : Reply → Reply
  | formula f rest passed => formula f rest (earlier ++ passed)
  | nothing rest passed => nothing rest (earlier ++ passed)
  | fault d rest passed => fault d rest (earlier ++ passed)

/-- Goes on from a formula that was read. -/
def andThen (next : Formula → List Located → Reply) : Reply → Reply
  | formula f rest passed => (next f rest).after passed
  | r => r

/-- The operand of the command `c` at `offset`, which must be there, put into its place. -/
def operand (c : Command) (offset : Nat) (build : Formula → Formula) : Reply → Reply
  | formula f rest passed => formula (build f) rest passed
  | nothing rest passed => fault ⟨.missingOperand c, offset⟩ rest passed
  | r => r

/-- The inside of a parenthesis opened at `offset`. A closing parenthesis that does not follow is
passed over. -/
def closed (offset : Nat) : Reply → Reply
  | formula f (⟨.closeParen, _⟩ :: rest) passed => formula f rest passed
  | formula f rest passed => formula f rest (passed ++ [⟨.unclosedParen, offset⟩])
  | nothing rest passed => nothing rest (passed ++ [⟨.unclosedParen, offset⟩])
  | r => r

@[simp] theorem rest_after (ds : List Diagnostic) (r : Reply) : (r.after ds).rest = r.rest := by
  cases r <;> rfl

@[simp] theorem isNothing_after (ds : List Diagnostic) (r : Reply) :
    (r.after ds).isNothing = r.isNothing := by
  cases r <;> rfl

@[simp] theorem rest_operand (c : Command) (offset : Nat) (build : Formula → Formula)
    (r : Reply) : (r.operand c offset build).rest = r.rest := by
  cases r <;> rfl

theorem length_rest_closed_le (offset : Nat) (r : Reply) :
    (r.closed offset).rest.length ≤ r.rest.length := by
  unfold closed
  split <;> simp [rest]

end Reply

/-! ### Tokens that are passed over -/

/-- Whether a token can neither start a formula nor end the text. -/
def isStray : Token → Bool
  | .closeParen | .command (.connective _) => true
  | _ => false

/-- The faults of the stray tokens at the front. -/
def strayFaults (ts : List Located) : List Diagnostic :=
  (ts.takeWhile fun t => isStray t.token).map fun t => ⟨.unexpectedToken t.token, t.offset⟩

/-- The tokens after the stray ones at the front. -/
def dropStrays (ts : List Located) : List Located :=
  ts.dropWhile fun t => isStray t.token

/-- The token at the front; the end of the text where there is none. -/
def frontToken : List Located → Token
  | [] => .eof
  | t :: _ => t.token

/-- The offset at the front; where there is no token, the offset `last` of the last one. -/
def frontOffset (last : Nat) : List Located → Nat
  | [] => last
  | t :: _ => t.offset

/-! ### Formulas -/

mutual

/-- Reads a primary with `n` nesting levels left out of `limit`. -/
def primary (limit last n : Nat) (ts : List Located) : Reply :=
  Reply.after (strayFaults ts) <|
    match dropStrays ts with
    | ⟨.prop p args _, _⟩ :: rest => .formula (.prop p (args.map .var)) rest []
    | ⟨.var x, _⟩ :: rest => .formula (.var x) rest []
    | ⟨.command .neg, offset⟩ :: rest =>
      match n with
      | 0 => .fault ⟨.nestingTooDeep limit, frontOffset last rest⟩ rest []
      | n + 1 => (primary limit last n rest).operand .neg offset .neg
    | ⟨.command (.quantifier q), offset⟩ :: ⟨.var x, _⟩ :: rest =>
      match n with
      | 0 => .fault ⟨.nestingTooDeep limit, frontOffset last rest⟩ rest []
      | n + 1 => (primary limit last n rest).operand (.quantifier q) offset (.quant q x)
    | ⟨.command (.quantifier q), _⟩ :: rest =>
      .fault ⟨.missingBoundVariable q (frontToken rest), frontOffset last rest⟩ rest []
    | ⟨.openParen, offset⟩ :: rest =>
      match n with
      | 0 => .fault ⟨.nestingTooDeep limit, frontOffset last rest⟩ rest []
      | n + 1 =>
        ((primary limit last n rest).andThen fun f rest =>
          connectives limit last n 0 f rest).closed offset
    | rest => .nothing rest []

/-- Joins to `left` the connectives that follow, as long as their strength is at least `strength`,
with `n` nesting levels left out of `limit`. -/
def connectives (limit last n strength : Nat) (left : Formula) (ts : List Located) : Reply :=
  match ts with
  | ⟨.command (.connective op), offset⟩ :: rest =>
    if strength ≤ op.precedence then
      match n with
      | 0 => .fault ⟨.nestingTooDeep limit, offset⟩ rest []
      | n + 1 =>
        match (primary limit last n rest).andThen fun f rest =>
            connectives limit last n op.rightStrength f rest with
        | .formula right rest passed =>
          (connectives limit last n strength (.binary op left right) rest).after passed
        | .nothing rest passed =>
          .formula left rest (passed ++ [⟨.missingOperand (.connective op), offset⟩])
        | r => r
    else .formula left ts []
  | _ => .formula left ts []

end

/-- Reads an expression whose connectives outside parentheses have at least the given strength. -/
def expression (limit last n strength : Nat) (ts : List Located) : Reply :=
  (primary limit last n ts).andThen (connectives limit last n strength)

/-! ### Progress -/

/-- A reply to the tokens `ts` that leaves fewer of them, unless it found nothing. -/
def Advances (ts : List Located) (r : Reply) : Prop :=
  r.rest.length ≤ ts.length ∧ (r.isNothing = false → r.rest.length < ts.length)

theorem Advances.after {ts : List Located} {r : Reply} (ds : List Diagnostic)
    (h : Advances ts r) : Advances ts (r.after ds) := by
  simpa [Advances] using h

theorem Advances.andThen {ts : List Located} {r : Reply} {next : Formula → List Located → Reply}
    (h : Advances ts r) (hnext : ∀ f rest, (next f rest).rest.length ≤ rest.length) :
    Advances ts (r.andThen next) := by
  cases r with
  | formula f rest passed =>
    have hlt := h.2 rfl
    have hle := hnext f rest
    simp only [Reply.rest] at hlt
    simp only [Advances, Reply.andThen, Reply.rest_after]
    omega
  | nothing | fault => exact h

theorem length_dropStrays_le (ts : List Located) : (dropStrays ts).length ≤ ts.length :=
  (List.dropWhile_suffix _).length_le

theorem primary_and_connectives_progress (limit last n : Nat) :
    (∀ ts, Advances ts (primary limit last n ts)) ∧
      ∀ strength left ts,
        (connectives limit last n strength left ts).rest.length ≤ ts.length := by
  induction n with
  | zero =>
    refine ⟨fun ts => ?_, fun strength left ts => ?_⟩
    · unfold primary
      apply Advances.after
      have := length_dropStrays_le ts
      split <;> simp_all [Advances, Reply.rest, Reply.isNothing] <;> omega
    · unfold connectives
      split
      · split <;> simp [Reply.rest]
      · simp [Reply.rest]
  | succ n ih =>
    obtain ⟨ihp, ihc⟩ := ih
    have inner (strength : Nat) (ts : List Located) : Advances ts
        ((primary limit last n ts).andThen fun f rest =>
          connectives limit last n strength f rest) :=
      (ihp ts).andThen fun f rest => ihc strength f rest
    refine ⟨fun ts => ?_, fun strength left ts => ?_⟩
    · unfold primary
      apply Advances.after
      have hd := length_dropStrays_le ts
      split
      case h_3 offset rest h =>
        have := (ihp rest).1
        rw [h, List.length_cons] at hd
        simp only [Advances, Reply.rest_operand]
        omega
      case h_4 q offset x o rest h =>
        have := (ihp rest).1
        rw [h, List.length_cons, List.length_cons] at hd
        simp only [Advances, Reply.rest_operand]
        omega
      case h_6 offset rest h =>
        have h' := (inner 0 rest).1
        have := Reply.length_rest_closed_le offset
          ((primary limit last n rest).andThen fun f rest => connectives limit last n 0 f rest)
        rw [h, List.length_cons] at hd
        simp only [Advances]
        omega
      all_goals simp_all [Advances, Reply.rest, Reply.isNothing] <;> omega
    · unfold connectives
      split
      · split
        · rename_i op offset rest _
          have h := (inner op.rightStrength rest).1
          simp only
          split
          · rename_i right rest' passed heq
            have := ihc strength (.binary op left right) rest'
            rw [heq] at h
            simp only [Reply.rest] at h
            simp only [Reply.rest_after, List.length_cons]
            omega
          · rename_i rest' passed heq
            rw [heq] at h
            simp only [Reply.rest] at h ⊢
            simp only [List.length_cons]
            omega
          · simp only [List.length_cons]
            omega
        · simp [Reply.rest]
      · simp [Reply.rest]

/-- An attempt to read an expression takes at least one token, unless it finds the end first. -/
theorem expression_progress (limit last n strength : Nat) (ts : List Located) :
    Advances ts (expression limit last n strength ts) :=
  ((primary_and_connectives_progress limit last n).1 ts).andThen
    fun f rest => (primary_and_connectives_progress limit last n).2 strength f rest

end ClausalForm.Reading
